/-
# ZeroKv.Lib.Park — the park token, and sleeping behind a flag.

Every thread has one token.  `unpark` sets it, from anywhere and for any reason, and `park` consumes it or
blocks.  A token says nothing about why it was set, so a thread that waits for something looks at a flag and
parks only if it finds the flag clear; whoever raises the flag unparks afterwards.

`Guarded` is what this order of steps keeps while the thread is parked.  The thread and the flag are
parameters: nothing here says whether the flag is taken or only read, who shares the token, or what else
happens to it while the thread is not parked.
-/
import Mathlib.Logic.Basic

namespace ZeroKv.Park

/-- `park` on a thread with the given token: the token afterwards, or `none` while the thread is blocked.
A spurious return leaves the token alone. -/
def park (token spurious : Bool) : Option Bool :=
  if spurious then some token else if token then some false else none

theorem park_of_token (spurious : Bool) : ∃ token, park true spurious = some token := by
  cases spurious <;> exact ⟨_, rfl⟩

/-- While the thread is parked: if the flag is up and the token is not set, someone who raised it is `owed`
to unpark; and the token is set once someone who raised it is `done`. -/
structure Guarded (parked : Prop) (flag token : Bool) (owed done : Prop) : Prop where
  owed_of_flag : parked → flag = true → token = false → owed
  token_of_done : parked → done → token = true

namespace Guarded

variable {parked parked' owed owed' done done' : Prop} {flag token : Bool}

theorem of_not_parked (h : ¬ parked) : Guarded parked flag token owed done :=
  ⟨fun hp => absurd hp h, fun hp => absurd hp h⟩

/-- The thread parks after it has found the flag clear. -/
theorem check (hflag : flag = false) (hdone : ¬ done) : Guarded parked flag token owed done :=
  ⟨fun _ ht => absurd ht (by simp [hflag]), fun _ hd => absurd hd hdone⟩

/-- Someone raises the flag. -/
theorem raise (h : Guarded parked flag token owed done) (howed : owed') (hdone : done' → done) :
    Guarded parked true token owed' done' :=
  ⟨fun _ _ _ => howed, fun hp hd => h.token_of_done hp (hdone hd)⟩

theorem unpark : Guarded parked flag true owed done := ⟨fun _ _ ht => (by simp at ht), fun _ _ => rfl⟩

/-- A step that leaves the flag and the token of a parked thread alone. -/
theorem frame (h : Guarded parked flag token owed done) (hparked : parked' → parked)
    (howed : owed → owed') (hdone : done' → done) : Guarded parked' flag token owed' done' :=
  ⟨fun hp hf ht => howed (h.owed_of_flag (hparked hp) hf ht),
    fun hp hd => h.token_of_done (hparked hp) (hdone hd)⟩

end Guarded

end ZeroKv.Park
