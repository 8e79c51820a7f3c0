import CinderX.Foundation.Basic

/-!
# Regular expressions with groups

A backtracking matcher for patterns whose repetitions are of single characters.
It lists the matches of a prefix in the order in which a greedy matcher tries
them, and the first one counts.
-/

namespace CinderX.Foundation

open List

inductive Regex where
  | empty
  | char (p : Char → Bool)
  | star (p : Char → Bool)
  | seq (first second : Regex)
  | alt (first second : Regex)
  | group (index : Nat) (body : Regex)

namespace Regex

structure Match where
  text : List Char
  groups : List (Nat × List Char)
  rest : List Char
  deriving DecidableEq, Repr

namespace Match

def append (m later : Match) : Match :=
  ⟨m.text ++ later.text, m.groups ++ later.groups, later.rest⟩

def group (m : Match) (index : Nat) : List Char :=
  ((m.groups.find? fun pair => pair.1 = index).map Prod.snd).getD []

def capture (m : Match) (index : Nat) : Match :=
  { m with groups := (index, m.text) :: m.groups }

end Match

def lit (word : List Char) (next : Regex) : Regex :=
  word.foldr (fun c next => seq (char fun d => d = c) next) next

def plus (p : Char → Bool) : Regex := seq (char p) (star p)

def opt (r : Regex) : Regex := alt r empty

def hasGroups : Regex → Bool
  | empty | char _ | star _ => false
  | seq r t | alt r t => r.hasGroups || t.hasGroups
  | group _ _ => true

def runStar (p : Char → Bool) : List Char → List Match
  | [] => [⟨[], [], []⟩]
  | c :: s =>
    if p c then
      (runStar p s).map (fun m => { m with text := c :: m.text }) ++ [⟨[], [], c :: s⟩]
    else [⟨[], [], c :: s⟩]

/-- The matches of a prefix of the text, the longest repetitions first. -/
def run : Regex → List Char → List Match
  | empty, s => [⟨[], [], s⟩]
  | char _, [] => []
  | char p, c :: s => if p c then [⟨[c], [], s⟩] else []
  | star p, s => runStar p s
  | seq r t, s => (run r s).flatMap fun m => (run t m.rest).map m.append
  | alt r t, s => run r s ++ run t s
  | group index r, s => (run r s).map fun m => m.capture index

def matchPrefix (r : Regex) (s : List Char) : Option Match := (run r s).head?

def search (r : Regex) : List Char → Option Match
  | [] => r.matchPrefix []
  | c :: s => (r.matchPrefix (c :: s)).or (search r s)

section Matching

variable {r t : Regex} {p : Char → Bool} {c : Char} {s : List Char} {m m' : Match}

attribute [local simp] run

theorem matchPrefix_eq_none : r.matchPrefix s = none ↔ r.run s = [] := head?_eq_none_iff

@[simp]
theorem matchPrefix_empty : empty.matchPrefix s = some ⟨[], [], s⟩ := rfl

@[simp]
theorem matchPrefix_char_nil : (char p).matchPrefix [] = none := rfl

@[simp]
theorem matchPrefix_char_cons :
    (char p).matchPrefix (c :: s) = if p c then some ⟨[c], [], s⟩ else none := by
  unfold matchPrefix run
  split <;> rfl

@[simp]
theorem matchPrefix_group {index : Nat} :
    (group index r).matchPrefix s = (r.matchPrefix s).map fun m => m.capture index := by
  simp [matchPrefix, run, head?_map]

variable {text rest : List Char} {groups : List (Nat × List Char)}

theorem matchPrefix_group_of (index : Nat) (h : r.matchPrefix s = some ⟨text, groups, rest⟩) :
    (group index r).matchPrefix s = some ⟨text, (index, text) :: groups, rest⟩ := by
  rw [matchPrefix_group, h]
  rfl

theorem matchPrefix_seq (h : r.matchPrefix s = some m)
    (h' : t.matchPrefix m.rest = some m') : (seq r t).matchPrefix s = some (m.append m') := by
  obtain ⟨ms, hrun⟩ : ∃ ms, r.run s = m :: ms := head?_eq_some_iff.mp h
  obtain ⟨ms', hrun'⟩ : ∃ ms', t.run m.rest = m' :: ms' := head?_eq_some_iff.mp h'
  simp [matchPrefix, run, hrun, hrun']

theorem matchPrefix_seq_of (h : r.matchPrefix s = some ⟨text, groups, rest⟩)
    (h' : t.matchPrefix rest = some m') :
    (seq r t).matchPrefix s = some ⟨text ++ m'.text, groups ++ m'.groups, m'.rest⟩ :=
  matchPrefix_seq h h'

@[simp]
theorem matchPrefix_seq_char_nil : (seq (char p) t).matchPrefix [] = none := rfl

@[simp]
theorem matchPrefix_seq_char_cons :
    (seq (char p) t).matchPrefix (c :: s) =
      if p c then (t.matchPrefix s).map (Match.append ⟨[c], [], s⟩) else none := by
  by_cases h : p c <;> simp [matchPrefix, run, h, head?_map]

theorem matchPrefix_alt_left (h : r.matchPrefix s = some m) :
    (alt r t).matchPrefix s = some m := by
  obtain ⟨ms, hrun⟩ : ∃ ms, r.run s = m :: ms := head?_eq_some_iff.mp h
  simp [matchPrefix, run, hrun]

theorem matchPrefix_alt_right (h : r.matchPrefix s = none) :
    (alt r t).matchPrefix s = t.matchPrefix s := by
  rw [matchPrefix_eq_none] at h
  simp [matchPrefix, run, h]

theorem matchPrefix_opt_none (h : r.matchPrefix s = none) :
    (opt r).matchPrefix s = some ⟨[], [], s⟩ :=
  (matchPrefix_alt_right h).trans matchPrefix_empty

variable {word : List Char}

theorem matchPrefix_star (hword : ∀ c ∈ word, p c = true) (hrest : ∀ c ∈ s.head?, p c = false) :
    (star p).matchPrefix (word ++ s) = some ⟨word, [], s⟩ := by
  induction word with
  | nil =>
    cases s with
    | nil => rfl
    | cons c s =>
      have hc : p c = false := hrest c rfl
      simp [matchPrefix, run, runStar, hc]
  | cons c word ih =>
    have hc : p c = true := hword c (by simp)
    have hrun := ih fun d hd => hword d (by simp [hd])
    obtain ⟨ms, hms⟩ : ∃ ms, runStar p (word ++ s) = ⟨word, [], s⟩ :: ms :=
      head?_eq_some_iff.mp hrun
    simp [matchPrefix, run, runStar, hc, hms]

theorem matchPrefix_plus (hne : word ≠ []) (hword : ∀ c ∈ word, p c = true)
    (hrest : ∀ c ∈ s.head?, p c = false) :
    (plus p).matchPrefix (word ++ s) = some ⟨word, [], s⟩ := by
  cases word with
  | nil => exact absurd rfl hne
  | cons c word =>
    have hc : p c = true := hword c (by simp)
    have hstar : (star p).matchPrefix (word ++ s) = some ⟨word, [], s⟩ :=
      matchPrefix_star (fun d hd => hword d (by simp [hd])) hrest
    simp [plus, hc, hstar, Match.append]

@[simp]
theorem matchPrefix_lit_nil : (lit [] r).matchPrefix s = r.matchPrefix s := rfl

@[simp]
theorem matchPrefix_lit_cons {d : Char} :
    (lit (c :: word) r).matchPrefix (d :: s) =
      if d = c then ((lit word r).matchPrefix s).map (Match.append ⟨[d], [], s⟩)
      else none := by
  unfold lit
  rw [foldr_cons, matchPrefix_seq_char_cons]
  simp

@[simp]
theorem matchPrefix_lit_cons_nil :
    (lit (c :: word) r).matchPrefix [] = none := rfl

theorem matchPrefix_lit (word : List Char) :
    (lit word r).matchPrefix (word ++ s) =
      (r.matchPrefix s).map (Match.append ⟨word, [], s⟩) := by
  induction word with
  | nil =>
    have happend : Match.append ⟨[], [], s⟩ = id := rfl
    simp [happend]
  | cons c word ih =>
    rw [cons_append, matchPrefix_lit_cons, if_pos rfl, ih, Option.map_map]
    rfl

theorem matchPrefix_word (word : List Char) :
    (lit word empty).matchPrefix (word ++ s) = some ⟨word, [], s⟩ := by
  rw [matchPrefix_lit, matchPrefix_empty, Option.map_some, Match.append, append_nil,
    append_nil]

theorem matchPrefix_lit_of (word : List Char) (h : r.matchPrefix s = some ⟨text, groups, rest⟩) :
    (lit word r).matchPrefix (word ++ s) = some ⟨word ++ text, groups, rest⟩ := by
  rw [matchPrefix_lit, h]
  rfl

end Matching

def consumes : Regex → Bool
  | empty | star _ => false
  | char _ => true
  | seq r t => r.consumes || t.consumes
  | alt r t => r.consumes && t.consumes
  | group _ r => r.consumes

variable {r : Regex}

theorem text_ne_nil_of_consumes (h : r.consumes = true) {s : List Char} {m : Match}
    (hm : m ∈ r.run s) : m.text ≠ [] := by
  induction r generalizing s m with
  | empty => cases h
  | star p => cases h
  | char p =>
    cases s with
    | nil => simp [run] at hm
    | cons c s =>
      by_cases hc : p c
      · simp [run, hc] at hm
        simp [hm]
      · simp [run, hc] at hm
  | seq r t ihr iht =>
    obtain ⟨m₁, hm₁, m₂, hm₂, rfl⟩ :
        ∃ m₁ ∈ r.run s, ∃ m₂ ∈ t.run m₁.rest, m₁.append m₂ = m := by
      simpa [run] using hm
    rcases (Bool.or_eq_true _ _).mp h with hr | ht
    · simp [Match.append, ihr hr hm₁]
    · simp [Match.append, iht ht hm₂]
  | alt r t ihr iht =>
    have hboth := (Bool.and_eq_true _ _).mp h
    rcases mem_append.mp hm with hm | hm
    · exact ihr hboth.1 hm
    · exact iht hboth.2 hm
  | group index r ih =>
    obtain ⟨m', hm', rfl⟩ := List.mem_map.mp hm
    have htext : m'.text ≠ [] := ih h hm'
    exact htext

/--
What is left of a known start of the text in each branch of a match, nothing when
a branch may go on behind it.
-/
def advance : Regex → List Char → Option (List (List Char))
  | empty, w => some [w]
  | char _, [] => none
  | char p, c :: w => some (if p c then [w] else [])
  | star p, w => if w.all p then none else some ((runStar p w).map Match.rest)
  | seq r t, w =>
    (advance r w).bind fun rests => (rests.mapM (advance t)).map List.flatten
  | alt r t, w => (advance r w).bind fun left => (advance t w).map (left ++ ·)
  | group _ r, w => advance r w

def refutes (r : Regex) (w : List Char) : Bool := r.advance w = some []

variable {w : List Char}

theorem runStar_append {p : Char → Bool} (s : List Char) (h : w.all p = false) :
    (runStar p (w ++ s)).map Match.rest = (runStar p w).map fun m => m.rest ++ s := by
  induction w with
  | nil => simp at h
  | cons c w ih =>
    cases hc : p c with
    | true =>
      have hw : w.all p = false := by simpa [hc] using h
      have hih := ih hw
      simp only [cons_append, runStar, hc, if_true, map_append, List.map_map,
        map_cons, map_nil]
      rw [show Match.rest ∘ (fun m : Match => { m with text := c :: m.text }) =
        Match.rest from rfl, hih]
      rfl
    | false => simp [runStar, hc]

theorem rests_of_advance {rests : List (List Char)} (h : r.advance w = some rests) (s : List Char) :
    (r.run (w ++ s)).map Match.rest = rests.map (· ++ s) := by
  induction r generalizing w rests with
  | empty =>
    cases h
    rfl
  | char p =>
    cases w with
    | nil => cases h
    | cons c w =>
      cases h
      by_cases hc : p c <;> simp [run, hc]
  | star p =>
    cases hall : w.all p with
    | true => simp [advance, hall] at h
    | false =>
      obtain rfl : (runStar p w).map Match.rest = rests := by
        simpa [advance, hall] using h
      rw [run, runStar_append s hall, List.map_map]
      rfl
  | alt r t ihr iht =>
    obtain ⟨left, hleft, right, hright, rfl⟩ :
        ∃ left, r.advance w = some left ∧ ∃ right, t.advance w = some right ∧
          left ++ right = rests := by
      simpa [advance, Option.bind_eq_some_iff] using h
    simp [run, ihr hleft, iht hright]
  | group index r ih =>
    have hcapture : Match.rest ∘ (fun m => m.capture index) = Match.rest := rfl
    rw [run, List.map_map, hcapture]
    exact ih h
  | seq r t ihr iht =>
    obtain ⟨mids, hmids, later, hlater, rfl⟩ :
        ∃ mids, r.advance w = some mids ∧ ∃ later, mids.mapM (advance t) = some later ∧
          later.flatten = rests := by
      simpa [advance, Option.bind_eq_some_iff] using h
    have hrests : ∀ m : Match, Match.rest ∘ m.append = Match.rest := fun _ => rfl
    have hrun : ((seq r t).run (w ++ s)).map Match.rest =
        ((r.run (w ++ s)).map Match.rest).flatMap fun rest =>
          (t.run rest).map Match.rest := by
      simp [run, map_flatMap, flatMap_map, List.map_map, hrests]
    rw [hrun, ihr hmids]
    clear h hmids hrun
    induction mids generalizing later with
    | nil =>
      obtain rfl : later = [] := by simpa using hlater.symm
      rfl
    | cons mid mids ih =>
      obtain ⟨first, hfirst, rest, hrest, rfl⟩ :
          ∃ first, t.advance mid = some first ∧ ∃ rest,
            mids.mapM (advance t) = some rest ∧ first :: rest = later := by
        simpa [mapM_cons, Option.bind_eq_some_iff] using hlater
      rw [map_cons, flatMap_cons, iht hfirst, ih rest hrest,
        flatten_cons, map_append]

theorem text_append_rest {s : List Char} {m : Match} (hm : m ∈ r.run s) : m.text ++ m.rest = s := by
  induction r generalizing s m with
  | empty =>
    obtain rfl : m = ⟨[], [], s⟩ := by simpa [run] using hm
    rfl
  | char p =>
    cases s with
    | nil => simp [run] at hm
    | cons c s =>
      by_cases hc : p c
      · obtain rfl : m = ⟨[c], [], s⟩ := by simpa [run, hc] using hm
        rfl
      · simp [run, hc] at hm
  | star p =>
    have hstar : ∀ (s : List Char), ∀ m ∈ runStar p s, m.text ++ m.rest = s := by
      intro s
      induction s with
      | nil => simp [runStar]
      | cons c s ih =>
        intro m hm
        by_cases hc : p c
        · simp only [runStar, hc, if_true, mem_append, List.mem_map, mem_singleton] at hm
          rcases hm with ⟨m', hm', rfl⟩ | rfl
          · simpa using ih m' hm'
          · rfl
        · obtain rfl : m = ⟨[], [], c :: s⟩ := by simpa [runStar, hc] using hm
          rfl
    exact hstar s m hm
  | seq r t ihr iht =>
    obtain ⟨m₁, hm₁, m₂, hm₂, rfl⟩ :
        ∃ m₁ ∈ r.run s, ∃ m₂ ∈ t.run m₁.rest, m₁.append m₂ = m := by
      simpa [run] using hm
    rw [Match.append, append_assoc, iht hm₂, ihr hm₁]
  | alt r t ihr iht =>
    rcases mem_append.mp hm with hm | hm
    · exact ihr hm
    · exact iht hm
  | group index r ih =>
    obtain ⟨m', hm', rfl⟩ := List.mem_map.mp hm
    have htext : m'.text ++ m'.rest = s := ih hm'
    exact htext

/-- The first match of a known start of the text, when what is left of it is known. -/
theorem matchPrefix_of_advance {text rest : List Char} {rests : List (List Char)}
    (h : r.advance (text ++ rest) = some (rest :: rests)) (s : List Char) :
    ∃ groups, r.matchPrefix (text ++ (rest ++ s)) = some ⟨text, groups, rest ++ s⟩ := by
  have hrests := rests_of_advance h s
  rw [map_cons, map_eq_cons_iff, append_assoc] at hrests
  obtain ⟨m, ms, hrun, hrest, -⟩ := hrests
  have htext : m.text ++ m.rest = text ++ (rest ++ s) :=
    text_append_rest (r := r) (by simp [hrun])
  rw [hrest] at htext
  obtain ⟨mtext, groups, mrest⟩ := m
  obtain rfl := append_cancel_right htext
  exact ⟨groups, by rw [matchPrefix, hrun, head?_cons, ← hrest]⟩

theorem matchPrefix_of_refutes (h : r.refutes w = true) (s : List Char) :
    r.matchPrefix (w ++ s) = none := by
  have hadvance : r.advance w = some [] := by simpa [refutes] using h
  rw [matchPrefix_eq_none]
  simpa using rests_of_advance hadvance s

theorem forall_mem_of_all {P : Char → Prop} [DecidablePred P]
    (h : (w.all fun c => decide (P c)) = true) : ∀ c ∈ w, P c := by
  simpa using h

section Searching

variable {r : Regex} {s : List Char} {m : Match}

theorem search_of_matchPrefix (h : r.matchPrefix s = some m) : r.search s = some m := by
  cases s with
  | nil => exact h
  | cons c s => rw [search, h, Option.some_or]

theorem search_cons {c : Char} (h : r.matchPrefix (c :: s) = none) :
    r.search (c :: s) = r.search s := by
  rw [search, h, Option.none_or]

theorem search_append {w : List Char} (h : ∀ c ∈ w, r.refutes [c] = true)
    (s : List Char) : r.search (w ++ s) = r.search s := by
  induction w with
  | nil => rfl
  | cons c w ih =>
    have hc : r.matchPrefix (c :: (w ++ s)) = none :=
      matchPrefix_of_refutes (h c (by simp)) (w ++ s)
    rw [cons_append, search_cons hc]
    exact ih fun d hd => h d (by simp [hd])

end Searching

end Regex

end CinderX.Foundation
