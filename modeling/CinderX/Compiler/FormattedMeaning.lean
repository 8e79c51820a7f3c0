import CinderX.Compiler.ExpressionMeaning
import CinderX.Compiler.FormatCorrect

/-!
# A format as an f-string

The f-string for a `%` formats each element as soon as it has been evaluated, and else
means what the `%` means.
-/

namespace CinderX.Compiler.Optimizer

namespace Interpreter

variable {M : Type → Type} {V : Type} [Monad M] {py : Interpreter M V}

attribute [local simp] denote denoteList denoteSpec denoteGenerators denoteComprehension

theorem denoteList_eq_map (es : List Expr) : py.denoteList es = es.map py.denote := by
  induction es with
  | nil => rfl
  | cons e es ih => rw [denoteList, ih, List.map_cons]

theorem items_of_not_starred {e : Expr} (h : e.isStarred = false) :
    (py.denote e).items = (do return [← (py.denote e).value]) := by
  cases e <;> first | rfl | skip
  case Name id ctx =>
    rw [denote]
    split <;> rfl
  case Starred => cases h

theorem text_const (hpy : py.Documented) (s : List Char) :
    py.text (py.const (.str s)) = pure s := by
  rw [text, hpy.text_str]

def evalThen {β : Type} : List (Meaning M V) → (List V → M β) → M β
  | [], k => k []
  | m :: ms, k => do
      let v ← m.value
      evalThen ms fun vs => k (v :: vs)

variable {β : Type} {ms : List (Meaning M V)} {pieces : List Piece} {elts values : List Expr}

theorem evalThen_congr {k k' : List V → M β}
    (h : ∀ vs, vs.length = ms.length → k vs = k' vs) : evalThen ms k = evalThen ms k' := by
  induction ms generalizing k k' with
  | nil => exact h [] rfl
  | cons m ms ih =>
    apply bind_congr
    intro v
    apply ih
    intro vs hlength
    exact h (v :: vs) (congrArg Nat.succ hlength)

variable [LawfulMonad M]

theorem evalThen_bind {α β : Type} (ms : List (Meaning M V)) (k : List V → M α) (f : α → M β) :
    evalThen ms k >>= f = evalThen ms fun vs => k vs >>= f := by
  induction ms generalizing k with
  | nil => rfl
  | cons m ms ih =>
    simp only [evalThen, bind_assoc]
    exact bind_congr fun v => ih _

theorem displayItems_bind (h : ∀ m ∈ ms, m.items = (do return [← m.value])) (k : List V → M β) :
    displayItems ms >>= k = evalThen ms k := by
  induction ms generalizing k with
  | nil => simp [displayItems, evalThen]
  | cons m ms ih =>
    obtain ⟨hm, hms⟩ := List.forall_mem_cons.mp h
    simp only [displayItems, evalThen, hm, bind_assoc, pure_bind, List.singleton_append]
    exact bind_congr fun v => ih hms _

/-- Every object that is computed has the property. -/
def Yields (p : V → Prop) (x : M V) : Prop :=
  ∃ x' : M { v // p v }, (do return (← x').val) = x

theorem bind_congr_of_yields {p : V → Prop} {x : M V} (h : Yields p x) {k k' : V → M β}
    (hk : ∀ v, p v → k v = k' v) : x >>= k = x >>= k' := by
  obtain ⟨x', rfl⟩ := h
  simp only [bind_assoc, pure_bind]
  exact bind_congr fun v => hk v.val v.property

variable (py) in
/-- A format may convert each element as soon as it has been evaluated: the conversions give
plain strings, before or after the evaluation of the elements behind. -/
def InOrder : List Piece → List (Meaning M V) → Prop
  | .char _ :: pieces, ms => InOrder pieces ms
  | .conv _ _ _ c :: pieces, m :: ms =>
    Yields (py.Plain c) m.value ∧
      (∀ (β : Type) (k : List Char → List V → M β),
        (do
          let v ← m.value
          let s ← py.convertText c v
          evalThen ms (k s)) =
        (do
          let v ← m.value
          evalThen ms fun vs => do
            let s ← py.convertText c v
            k s vs)) ∧
      InOrder pieces ms
  | _, _ => True

omit [LawfulMonad M] in
theorem inOrder_chars (s : List Char) :
    py.InOrder (s.map .char ++ pieces) ms ↔ py.InOrder pieces ms := by
  induction s with
  | nil => rfl
  | cons ch s ih => exact ih

theorem evalThen_congr_of_inOrder (horder : py.InOrder pieces ms) {k k' : List V → M β}
    (h : ∀ vs, vs.length = ms.length → py.PlainArguments pieces vs → k vs = k' vs) :
    evalThen ms k = evalThen ms k' := by
  induction pieces generalizing ms k k' with
  | nil => exact evalThen_congr fun vs hlength => h vs hlength trivial
  | cons piece pieces ih =>
    cases piece with
    | char ch => exact ih horder h
    | conv ljust width prec c =>
      cases ms with
      | nil => exact h [] rfl trivial
      | cons m ms =>
        obtain ⟨hplain, -, hrest⟩ := horder
        refine bind_congr_of_yields hplain fun v hv => ih hrest fun vs hlength hvs => ?_
        exact h (v :: vs) (congrArg Nat.succ hlength) ⟨hv, hvs⟩

theorem formatPieces_chars (s : List Char) (pieces : List Piece) (vs : List V) :
    py.formatPieces (s.map .char ++ pieces) vs =
      (do return s ++ (← py.formatPieces pieces vs)) := by
  unfold formatPieces
  induction s with
  | nil => simp
  | cons ch s ih => simp [formatWith, ih]

theorem specText_res (hpy : py.Documented) (res : List Char) :
    py.specText (py.denoteSpec (if res = [] then none else some (.Constant (.str res)))) =
      pure res := by
  split
  · next hres =>
      rw [hres]
      rfl
  · simp [denoteSpec, denote, specText, ofValue, text_const hpy]

theorem convert_of_plain (hpy : py.Documented) {c : Conversion} {v : V}
    (h : py.Plain c v) : py.convert c v = (do return py.const (.str (← py.convertText c v))) := by
  obtain ⟨text, htext⟩ := h
  simp [convertText, htext, text_const hpy]

theorem format_of_plain (hpy : py.Documented) {info : FormatInfo} (hwidth : info.width ≠ some 0)
    {c : Conversion} {v : V} (h : py.Plain c v) :
    (do py.format (← py.convert c v) info.res) =
      (do
        let s ← py.convertText c v
        return py.const (.str (pad (decide (info.flags &&& F_LJUST ≠ 0)) (info.width.getD 0)
          (truncate info.prec s)))) := by
  rw [convert_of_plain hpy h]
  simp only [bind_assoc, pure_bind, hpy.format_const _ _ _ (formatText_res hwidth _)]

theorem countP_of_joined
    (h : Joined pieces elts values) : pieces.countP Piece.isConv = elts.length := by
  induction h with
  | nil => rfl
  | @text s pieces elts values h ih =>
    rw [List.countP_append, ih, Nat.add_eq_right, List.countP_eq_zero]
    intro piece hpiece
    obtain ⟨ch, -, rfl⟩ := List.mem_map.mp hpiece
    exact Bool.false_ne_true
  | conv hwidth h ih => rw [List.countP_cons_of_pos rfl, ih, List.length_cons]

theorem formattedValue_of_plain (hpy : py.Documented) {info : FormatInfo}
    (hwidth : info.width ≠ some 0) {c : Conversion} {m : Meaning M V}
    (h : Yields (py.Plain c) m.value) :
    py.formattedValue m (some c) (py.denoteSpec
      (if info.res = [] then none else some (.Constant (.str info.res)))) =
    (do
      let s ← py.convertText c (← m.value)
      return py.const (.str (pad (decide (info.flags &&& F_LJUST ≠ 0)) (info.width.getD 0)
        (truncate info.prec s)))) := by
  simp only [formattedValue, specText_res hpy, pure_bind]
  exact bind_congr_of_yields h fun v hv => format_of_plain hpy hwidth hv

/-- Parts that are plain strings are joined to one. -/
theorem joinedStr_of_texts (hpy : py.Documented)
    (h : ∀ m ∈ ms, ∃ text, m.value = (do return py.const (.str (← text)))) :
    py.joinedStr ms = (do return py.const (.str (← py.joinTexts ms))) := by
  unfold joinedStr
  split
  · next m =>
      obtain ⟨text, htext⟩ := h m (List.mem_singleton_self m)
      simp [joinTexts, htext, text_const hpy]
  · rfl

theorem texts_of_joined (hpy : py.Documented) (h : Joined pieces elts values)
    (horder : py.InOrder pieces (py.denoteList elts)) :
    ∀ m ∈ py.denoteList values, ∃ text, m.value = (do return py.const (.str (← text))) := by
  induction h with
  | nil => exact nofun
  | @text s pieces elts values h ih =>
    rw [inOrder_chars] at horder
    exact List.forall_mem_cons.mpr ⟨⟨pure s, by simp [denote, ofValue]⟩, ih horder⟩
  | @conv info c pieces elt elts values hwidth h ih =>
    obtain ⟨hplain, -, hrest⟩ := horder
    refine List.forall_mem_cons.mpr ⟨⟨do
      let s ← py.convertText c (← (py.denote elt).value)
      return pad (decide (info.flags &&& F_LJUST ≠ 0)) (info.width.getD 0)
        (truncate info.prec s), ?_⟩, ih hrest⟩
    simp only [denote, ofValue, formattedValue_of_plain hpy hwidth hplain, bind_assoc, pure_bind]

theorem joinTexts_of_joined (hpy : py.Documented) (h : Joined pieces elts values)
    (horder : py.InOrder pieces (py.denoteList elts)) :
    py.joinTexts (py.denoteList values) =
      evalThen (py.denoteList elts) (py.formatPieces pieces) := by
  induction h with
  | nil => rfl
  | @text s pieces elts values h ih =>
    rw [inOrder_chars] at horder
    simp only [denoteList, joinTexts, denote, ofValue, pure_bind, text_const hpy, ih horder,
      evalThen_bind]
    exact evalThen_congr fun vs _ => (formatPieces_chars s pieces vs).symm
  | @conv info c pieces elt elts values hwidth h ih =>
    obtain ⟨hplain, horder, hrest⟩ := horder
    simp only [denoteList, joinTexts, denote, ofValue, formattedValue_of_plain hpy hwidth hplain,
      bind_assoc, pure_bind, text_const hpy, ih hrest, evalThen, formatPieces, formatWith,
      evalThen_bind]
    exact horder _ fun s vs => do
      return pad (decide (info.flags &&& F_LJUST ≠ 0)) (info.width.getD 0)
        (truncate info.prec s) ++ (← py.formatPieces pieces vs)

theorem denote_joinedStr (hpy : py.Documented) {val : List Char} {ctx : Ctx}
    (h : formatValues val elts [] = .ok (some values))
    (hstarred : ∀ e ∈ elts, e.isStarred = false)
    (horder : ∀ pieces, printfPieces val = some pieces → py.InOrder pieces (py.denoteList elts)) :
    py.denote (.JoinedStr values) =
      py.denote (.BinOp (.Constant (.str val)) .Mod (.Tuple elts ctx)) := by
  obtain ⟨pieces, values', hpieces, rfl, hjoined⟩ := formatValues_spec h
  have horder := horder pieces hpieces
  simp only [denote]
  congr 1
  have hitems : ∀ m ∈ py.denoteList elts, m.items = (do return [← m.value]) := by
    intro m hm
    rw [denoteList_eq_map] at hm
    obtain ⟨e, he, rfl⟩ := List.mem_map.mp hm
    exact items_of_not_starred (hstarred e he)
  rw [joinedStr_of_texts hpy (texts_of_joined hpy hjoined horder),
    joinTexts_of_joined hpy hjoined horder]
  simp only [ofValue, ofTarget, pure_bind, bind_assoc]
  rw [displayItems_bind hitems, evalThen_bind]
  refine evalThen_congr_of_inOrder horder fun vs hlength hplain => ?_
  rw [denoteList_eq_map, List.length_map] at hlength
  exact (hpy.format_str val pieces vs hpieces
    ((countP_of_joined hjoined).trans hlength.symm) hplain).symm

end Interpreter

end CinderX.Compiler.Optimizer
