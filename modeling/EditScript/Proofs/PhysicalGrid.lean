import EditScript.Proofs.Changes
import EditScript.Proofs.Spaces

namespace EditScript

namespace Emitter
variable {α β : Type}

end Emitter

namespace Table
variable {β : Type}

end Table

namespace Compiler
open Emitter

variable {arithmetic : Arithmetic}

variable (compiler : Compiler arithmetic) (index : Nat)

end Compiler
end EditScript
