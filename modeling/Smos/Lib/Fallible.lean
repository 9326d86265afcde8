import Mathlib.Data.Option.Basic

/-!
Programs over a state that can return an error or panic.

An error leaves the state as it was when the error was met, so what was changed before it stays
changed.  A panic has no result.
-/
namespace Smos.Lib

/-- A program over states `σ` with errors `ε`; `none` is a panic. -/
def Fallible (σ ε α : Type*) : Type _ := σ → Option (Except ε α × σ)

namespace Fallible

universe u

variable {σ ε : Type*} {α β : Type u}

protected def bind (m : Fallible σ ε α) (f : α → Fallible σ ε β) : Fallible σ ε β := fun st =>
  match m st with
  | none => none
  | some (.error e, st) => some (.error e, st)
  | some (.ok a, st) => f a st

instance : Monad (Fallible σ ε) where
  pure a := fun st => some (.ok a, st)
  bind := Fallible.bind

def abort : Fallible σ ε α := fun _ => none

variable {m : Fallible σ ε α} {f : α → Fallible σ ε β} {st st' : σ} {a : α} {e : ε}

theorem bind_ok (h : m st = some (.ok a, st')) : (m >>= f) st = f a st' := by
  change Fallible.bind m f st = _
  rw [Fallible.bind, h]

theorem bind_assoc {γ : Type u} {g : β → Fallible σ ε γ} :
    m >>= f >>= g = m >>= fun a => f a >>= g := by
  funext st
  change Fallible.bind (Fallible.bind m f) g st =
    Fallible.bind m (fun a => Fallible.bind (f a) g) st
  unfold Fallible.bind
  cases m st with
  | none => rfl
  | some result =>
    obtain ⟨result, st'⟩ := result
    cases result with
    | error e => rfl
    | ok a => rfl

end Fallible

end Smos.Lib
