import Playbook.Diagnostic

/-!
A feed is what one step of reading hands to the next: items in order, and the diagnostic that cut
them short, if any.
-/

namespace Playbook

structure Feed (α : Type) where
  items : List α
  fault : Option Diagnostic
  deriving Repr, DecidableEq

namespace Feed

variable {α : Type}

def cons (a : α) (feed : Feed α) : Feed α := { feed with items := a :: feed.items }

end Feed

end Playbook
