import Picasso.Access.Statements
import Picasso.Lib.Stateful

namespace Picasso.Access

open Lexing Parsing Declare Lib.Folds Lib.Stateful

variable {ν : Type} {c : Context}

section Steps

variable {α : Type} {cv : ClassView} {name property root : Bytes} {a : MemberAccess}

def View.flagged (view : View) (cls property : Bytes) : Bool :=
  (view.classes cls).any fun cv => cv.internalFields property

/-- A read, a write or a call in a chain that does not start at `this` is not of
a member that is known as internal. -/
def Guarded (view : View) (a : MemberAccess) : Prop :=
  a.kind = .spawn ∨ a.kind = .construct ∨ a.fromThis = true ∨ view.flagged a.cls a.property = false

variable {base : Option (Var α)} {r : Var ArrayType × MemberAccess} {root : Except Reject Bytes}

end Steps

section Expressions

def AllGuarded (c : Context) (g : Gen) : Prop := ∀ a ∈ g.accesses, Guarded c.view a

abbrev Safe {α : Type} (c : Context) (m : M α) : Prop := Keeps (AllGuarded c) m

end Expressions

section Statements

end Statements

section Functions

end Functions

end Picasso.Access
