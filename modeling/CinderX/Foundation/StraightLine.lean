import CinderX.Foundation.Basic

/-!
# Straight-line code up to its live registers

Code that works on registers and on a state beside them.  An instruction goes on,
leaves the code with something to be observed, or is stuck.  One piece of code
replaces another for a set of registers when it runs like it from every state, up
to the registers outside the set, and asks for the same registers at its beginning.
-/

namespace CinderX.Foundation

universe u

variable {Instr Reg Word Rest Exit : Type*}

structure RegState (Reg Word Rest : Type*) where
  regs : Reg → Word
  rest : Rest

def Agree (live : Set Reg) (s s' : RegState Reg Word Rest) : Prop :=
  (∀ r ∈ live, s.regs r = s'.regs r) ∧ s.rest = s'.rest

inductive Refines {α : Type*} (related : α → α → Prop) :
    Except (Option Exit) α → Except (Option Exit) α → Prop where
  | ok {a b : α} (h : related a b) : Refines related (.ok a) (.ok b)
  | leave (exit : Exit) : Refines related (.error (some exit)) (.error (some exit))
  | stuck (outcome : Except (Option Exit) α) : Refines related (.error none) outcome

/-- Instructions that depend on the registers they use and change those they define. -/
structure StraightLine (Instr Reg Word Rest Exit : Type*) where
  exec : Instr → RegState Reg Word Rest → Except (Option Exit) (RegState Reg Word Rest)
  uses : Instr → Set Reg
  defs : Instr → Set Reg
  exec_agree : ∀ (instr : Instr) (live : Set Reg) (s s' : RegState Reg Word Rest),
    Agree (live \ defs instr ∪ uses instr) s s' →
      Refines (Agree live) (exec instr s) (exec instr s')

section Agree

variable {live : Set Reg} {s s' s'' : RegState Reg Word Rest}

theorem Agree.refl (live : Set Reg) (s : RegState Reg Word Rest) : Agree live s s :=
  ⟨fun _ _ => rfl, rfl⟩

theorem Agree.trans (h : Agree live s s') (h' : Agree live s' s'') : Agree live s s'' :=
  ⟨fun r hr => (h.1 r hr).trans (h'.1 r hr), h.2.trans h'.2⟩

theorem agree_update [DecidableEq Reg] {r : Reg} (hr : r ∉ live) (word : Word) (regs : Reg → Word)
    (rest : Rest) : Agree live ⟨Function.update regs r word, rest⟩ ⟨regs, rest⟩ := by
  refine ⟨fun r' hr' => Function.update_of_ne ?_ _ _, rfl⟩
  rintro rfl
  exact hr hr'

end Agree

section Refines

variable {α β : Type u} {related : α → α → Prop} {x y z : Except (Option Exit) α}

theorem Refines.refl (hrefl : ∀ a, related a a) (x : Except (Option Exit) α) :
    Refines related x x := by
  match x with
  | .ok a => exact .ok (hrefl a)
  | .error (some exit) => exact .leave exit
  | .error none => exact .stuck _

theorem Refines.trans (htrans : ∀ a b c, related a b → related b c → related a c)
    (h : Refines related x y) (h' : Refines related y z) : Refines related x z := by
  cases h with
  | ok hab =>
    cases h' with
    | ok hbc => exact .ok (htrans _ _ _ hab hbc)
  | leave exit => exact h'
  | stuck => exact .stuck z

theorem Refines.bind {related' : β → β → Prop} {f g : α → Except (Option Exit) β}
    (h : Refines related x y) (hfg : ∀ a b, related a b → Refines related' (f a) (g b)) :
    Refines related' (x >>= f) (y >>= g) := by
  cases h with
  | ok hab => exact hfg _ _ hab
  | leave exit => exact .leave exit
  | stuck => exact .stuck _

end Refines

namespace StraightLine

variable (machine : StraightLine Instr Reg Word Rest Exit)

def run : List Instr → RegState Reg Word Rest → Except (Option Exit) (RegState Reg Word Rest)
  | [], s => .ok s
  | instr :: code, s => machine.exec instr s >>= run code

/-- The registers that `code` asks for when those of `out` are asked for behind it. -/
def live (out : Set Reg) : List Instr → Set Reg
  | [] => out
  | instr :: code => live out code \ machine.defs instr ∪ machine.uses instr

/-- `code'` may stand for `code` in front of code that asks for the registers `out`. -/
def Replaces (out : Set Reg) (code code' : List Instr) : Prop :=
  machine.live out code = machine.live out code' ∧
    ∀ s, Refines (Agree out) (machine.run code s) (machine.run code' s)

theorem live_append (out : Set Reg) (code code' : List Instr) :
    machine.live out (code ++ code') = machine.live (machine.live out code') code := by
  induction code with
  | nil => rfl
  | cons instr code ih => rw [List.cons_append, live, live, ih]

theorem run_append (code code' : List Instr) (s : RegState Reg Word Rest) :
    machine.run (code ++ code') s = machine.run code s >>= machine.run code' := by
  induction code generalizing s with
  | nil => rfl
  | cons instr code ih =>
    rw [List.cons_append, run, run, bind_assoc]
    exact congrArg _ (funext ih)

@[simp] theorem run_singleton (instr : Instr) (s : RegState Reg Word Rest) :
    machine.run [instr] s = machine.exec instr s :=
  bind_pure _

theorem run_pair (first second : Instr) (s : RegState Reg Word Rest) :
    machine.run [first, second] s = machine.exec first s >>= machine.exec second := by
  rw [run]
  exact congrArg _ (funext (machine.run_singleton second))

theorem run_agree {out : Set Reg} (code : List Instr) {s s' : RegState Reg Word Rest}
    (h : Agree (machine.live out code) s s') :
    Refines (Agree out) (machine.run code s) (machine.run code s') := by
  induction code generalizing s s' with
  | nil => exact .ok h
  | cons instr code ih =>
    exact (machine.exec_agree instr _ s s' h).bind fun _ _ hagree => ih hagree

namespace Replaces

variable {machine} {out : Set Reg} {code code' code'' : List Instr}

theorem refl (code : List Instr) : machine.Replaces out code code :=
  ⟨rfl, fun _ => .refl (Agree.refl out) _⟩

theorem trans (h : machine.Replaces out code code')
    (h' : machine.Replaces out code' code'') : machine.Replaces out code code'' :=
  ⟨h.1.trans h'.1, fun s => (h.2 s).trans (fun _ _ _ => Agree.trans) (h'.2 s)⟩

theorem cons (instr : Instr) (h : machine.Replaces out code code') :
    machine.Replaces out (instr :: code) (instr :: code') := by
  constructor
  · rw [live, live, h.1]
  · intro s
    refine Refines.bind (.refl Eq.refl (machine.exec instr s)) ?_
    rintro _ s' rfl
    exact h.2 _

/-- What stands for a window of the code need only be right for what is live behind it. -/
theorem append_right (rest : List Instr)
    (h : machine.Replaces (machine.live out rest) code code') :
    machine.Replaces out (code ++ rest) (code' ++ rest) := by
  constructor
  · rw [live_append, live_append, h.1]
  · intro s
    rw [run_append, run_append]
    exact (h.2 s).bind fun _ _ hagree => machine.run_agree rest hagree

theorem of_run_eq (hlive : machine.live out code = machine.live out code')
    (hrun : ∀ s, machine.run code s = machine.run code' s) :
    machine.Replaces out code code' :=
  ⟨hlive, fun s => hrun s ▸ .refl (Agree.refl out) _⟩

end Replaces

end StraightLine

end CinderX.Foundation
