import JavaBackend.Source.Arena
import JavaBackend.Unit
import JavaBackend.Proofs.Captures.Writes
import JavaBackend.Proofs.Draft.Names
import JavaBackend.Proofs.Effects.Occurrences
import JavaBackend.Proofs.Grammar.Quotes
import JavaBackend.Proofs.Jumps.Scope
import JavaBackend.Proofs.Layout.Classes
import JavaBackend.Proofs.Locals.Methods
import JavaBackend.Proofs.Meaning.Preservation
import JavaBackend.Proofs.Temps.Methods
import JavaBackend.Proofs.Captures.Runs
import JavaBackend.Proofs.Captures.Operands
import JavaBackend.Proofs.Grammar.Balance
import JavaBackend.Proofs.Grammar.Expressions
import JavaBackend.Proofs.Grammar.Trees
import JavaBackend.Proofs.Captures.Stores
import JavaBackend.Proofs.Decimal.Casts
import JavaBackend.Proofs.Lowering.RefusedLoops
import JavaBackend.Proofs.Lowering.Silence
import JavaBackend.Proofs.Jumps.Conditions
import JavaBackend.Proofs.Footprints.Restored
import JavaBackend.Proofs.Fields.Declared
import JavaBackend.Proofs.Fields.Values
import JavaBackend.Proofs.Unit.Delegation
import JavaBackend.Proofs.Grammar.Annotations
import JavaBackend.Proofs.Draft.Lifecycle
import JavaBackend.Proofs.Layout.Strokes
import JavaBackend.Proofs.Draft.Directives
import JavaBackend.Proofs.Grammar.Pairs
import JavaBackend.Proofs.Footprints.PlainLoops
import JavaBackend.Proofs.Lowering.Recursion
