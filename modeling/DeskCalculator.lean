import DeskCalculator.Main
import DeskCalculator.Proofs.Dialogues
import DeskCalculator.Proofs.Documents
import DeskCalculator.Proofs.Histories
import DeskCalculator.Proofs.Levels
import DeskCalculator.Proofs.Products
import DeskCalculator.Proofs.Readback
import DeskCalculator.Proofs.SignedZero
import DeskCalculator.Proofs.Spacing
import DeskCalculator.Proofs.Substitution
