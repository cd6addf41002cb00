import AlgebraicForm.Answer.Comparison
import AlgebraicForm.Proofs.Association
import AlgebraicForm.Proofs.Descent
import AlgebraicForm.Proofs.Juxtaposition
import AlgebraicForm.Proofs.Outcomes
import AlgebraicForm.Proofs.PolynomialEquality
import AlgebraicForm.Proofs.Representatives
import AlgebraicForm.Proofs.Refusals
import AlgebraicForm.Proofs.Reprinting
import AlgebraicForm.Proofs.Roots
import AlgebraicForm.Proofs.SignVariants
import AlgebraicForm.Proofs.Spacing
import AlgebraicForm.Proofs.Verdicts
import AlgebraicForm.Proofs.Vocabularies
import AlgebraicForm.Worksheet
