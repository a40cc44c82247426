import RegexBuilder.Main
import RegexBuilder.Proofs.Acceptance
import RegexBuilder.Proofs.AllOrNothing
import RegexBuilder.Proofs.Appending
import RegexBuilder.Proofs.Atomicity
import RegexBuilder.Proofs.ConditionKinds
import RegexBuilder.Proofs.DefinitionOrder
import RegexBuilder.Proofs.Detached
import RegexBuilder.Proofs.ExtendedReading
import RegexBuilder.Proofs.Faultless
import RegexBuilder.Proofs.InputKept
import RegexBuilder.Proofs.Minimal
import RegexBuilder.Proofs.NormalForm
import RegexBuilder.Proofs.Recursion
import RegexBuilder.Proofs.SetText
import RegexBuilder.Proofs.Subtraction
import RegexBuilder.Proofs.Unambiguous
import RegexBuilder.Proofs.WrittenQuantifier
