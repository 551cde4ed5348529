import ModelCompiler.Proofs.Compiling.Bindings
import ModelCompiler.Proofs.Compiling.Dispatchable
import ModelCompiler.Proofs.Compiling.Redeclarations
import ModelCompiler.Proofs.Compiling.Revalidation
import ModelCompiler.Proofs.Drafting.ImportGroups
import ModelCompiler.Proofs.Handling.Access
import ModelCompiler.Proofs.Slots.Restarts
import ModelCompiler.Proofs.Snapshot.Canonical
import ModelCompiler.Proofs.Store.Discipline
import ModelCompiler.Proofs.Store.Refusals
import ModelCompiler.Text.Json.Load
