import CinderX.ParallelGC.WsDeque

/-!
# The steps of the work-stealing deque

Every step of the owner and of a thief keeps the invariant.  For a thief it is
enough that a step of another thread raises `top`, or leaves what is read there.
-/

namespace CinderX.ParallelGC

open Foundation List Function

variable {α τ : Type}

structure WSDeque.Frame (d d' : WSDeque α) (limit limit' : Nat) : Prop where
  top : d.top ≤ d'.top
  arr : d.arr ≤ d'.arr
  same : d'.top = d.top → d.top < limit → d.top < limit' ∧
    d'.array.get d.top = d.array.get d.top ∧
      ∀ a ≤ d.arr, (d'.arrays a).get d.top = (d.arrays a).get d.top

theorem WSDeque.Frame.of_lt {d d' : WSDeque α} {limit limit' : Nat} (htop : d.top < d'.top)
    (harr : d.arr ≤ d'.arr) : d.Frame d' limit limit' where
  top := htop.le
  arr := harr
  same hsame := absurd hsame htop.ne'

theorem Thief.Ok.frame {d d' : WSDeque α} {limit limit' : Nat} {thief : Thief α}
    (hframe : d.Frame d' limit limit') (h : thief.Ok d limit) : thief.Ok d' limit' := by
  -- if `top` is what the thief has read, it was so before the step
  have hback : ∀ {top}, top ≤ d.top → d'.top = top → d.top = top := by
    intro top hle heq
    have := hframe.top
    omega
  cases thief with
  | idle => trivial
  | loadTop => trivial
  | loadBot top => exact le_trans h hframe.top
  | loadArr top =>
    refine ⟨le_trans h.1 hframe.top, fun heq => ?_⟩
    have hbefore := hback h.1 heq
    have hlt := h.2 hbefore
    subst hbefore
    exact (hframe.same heq hlt).1
  | get top arr =>
    refine ⟨le_trans h.1 hframe.top, le_trans h.2.1 hframe.arr, fun heq => ?_⟩
    have hbefore := hback h.1 heq
    obtain ⟨hlt, hread⟩ := h.2.2 hbefore
    subst hbefore
    obtain ⟨hlt', harray, harrays⟩ := hframe.same heq hlt
    exact ⟨hlt', by rw [harrays arr h.2.1, hread, harray]⟩
  | cas top res =>
    refine ⟨le_trans h.1 hframe.top, fun heq => ?_⟩
    have hbefore := hback h.1 heq
    obtain ⟨hlt, hread⟩ := h.2 hbefore
    subst hbefore
    obtain ⟨hlt', harray, -⟩ := hframe.same heq hlt
    exact ⟨hlt', by rw [hread, harray]⟩

namespace State.Inv

variable {s s' : State α τ} (h : s.Inv)

include h

theorem limit_lt (hwithin : s.Within) : s.limit < sizeMax := lt_of_le_of_lt h.limit_le hwithin

theorem exists_some {obj : Option α} (hobj : obj ∈ s.owner.held s.deque ++ s.contents) :
    ∃ x, obj = some x := by
  have hmem : obj ∈ s.pushed.map some := by
    refine h.account.mem_iff.mpr ?_
    rw [append_assoc]
    exact mem_append_right _ hobj
  obtain ⟨x, -, hx⟩ := List.mem_map.mp hmem
  exact ⟨x, hx.symm⟩

variable {owner old : Owner α}

theorem ok_of (howner : s.owner = owner) : owner.Ok s.deque := howner ▸ h.owner

theorem allocated_of (howner : s.owner = owner) :
    s.deque.allocated = s.deque.arr + owner.arraysFromCurrent := howner ▸ h.allocated

theorem array_sizeOk : s.deque.array.SizeOk := by
  refine h.size s.deque.arr ?_
  have hpos : 0 < s.owner.arraysFromCurrent := by
    cases s.owner <;> simp [Owner.arraysFromCurrent]
  have := h.allocated
  omega

theorem relabel (howner : s.owner = old) (bot numResizes : Nat) (returned : List α)
    (hlimit : owner.limit bot = old.limit s.deque.bot)
    (hfrom : owner.arraysFromCurrent = old.arraysFromCurrent)
    (hok : owner.Ok { s.deque with bot, numResizes })
    (haccount : returned.map some ++ owner.held s.deque =
      s.returned.map some ++ old.held s.deque) :
    ({ s with deque := { s.deque with bot, numResizes }, owner, returned } : State α τ).Inv := by
  subst howner
  exact {
    allocated := h.allocated.trans (by rw [hfrom])
    size := h.size
    top_pos := h.top_pos
    top_le := h.top_le.trans hlimit.ge
    room := hlimit.le.trans h.room
    limit_le := hlimit.le.trans h.limit_le
    owner := hok
    thief t := by
      refine (h.thief t).frame ⟨le_refl _, le_refl _, fun _ hlt => ⟨?_, rfl, fun _ _ => rfl⟩⟩
      exact lt_of_lt_of_le hlt hlimit.ge
    account := by
      have hheld : owner.held { s.deque with bot, numResizes } = owner.held s.deque := by
        cases owner <;> rfl
      have hcontents : ({ s with deque := { s.deque with bot, numResizes }, owner, returned } :
          State α τ).contents = s.contents := congrArg (s.deque.between s.deque.top) hlimit
      rw [hheld, hcontents, haccount]
      exact h.account }

theorem setOwner (howner : s.owner = old)
    (hlimit : owner.limit s.deque.bot = old.limit s.deque.bot)
    (hfrom : owner.arraysFromCurrent = old.arraysFromCurrent) (hok : owner.Ok s.deque)
    (hheld : owner.held s.deque = old.held s.deque) : ({ s with owner } : State α τ).Inv :=
  h.relabel howner s.deque.bot s.deque.numResizes s.returned hlimit hfrom hok (by rw [hheld])

theorem setThief [DecidableEq τ] {t : τ} {thief : Thief α} (hok : thief.Ok s.deque s.limit) :
    (s.setThief t thief).Inv where
  allocated := h.allocated
  size := h.size
  top_pos := h.top_pos
  top_le := h.top_le
  room := h.room
  limit_le := h.limit_le
  owner := h.owner
  thief other := by
    change (Function.update s.thieves t thief other).Ok s.deque s.limit
    by_cases hother : other = t
    · simpa [hother] using hok
    · simpa [hother] using h.thief other
  account := h.account

theorem setArrays {arrays : Nat → WSArray α} {allocated : Nat}
    (hkeep : ∀ a ≤ s.deque.arr, arrays a = s.deque.arrays a)
    (hsize : ∀ i < allocated, (arrays i).SizeOk)
    (hallocated : allocated = s.deque.arr + owner.arraysFromCurrent)
    (hlimit : owner.limit s.deque.bot = s.limit)
    (hok : owner.Ok { s.deque with arrays, allocated })
    (hheld : owner.held { s.deque with arrays, allocated } = s.owner.held s.deque) :
    ({ s with deque := { s.deque with arrays, allocated }, owner } : State α τ).Inv := by
  have harray : (⟨s.deque.top, s.deque.bot, s.deque.arr, s.deque.numResizes, arrays, allocated⟩ :
      WSDeque α).array = s.deque.array := hkeep s.deque.arr le_rfl
  constructor
  case allocated => exact hallocated
  case size => exact hsize
  case top_pos => exact h.top_pos
  case top_le => exact h.top_le.trans hlimit.ge
  case room => exact hlimit.le.trans (h.room.trans (by rw [harray]))
  case limit_le => exact hlimit.le.trans h.limit_le
  case owner => exact hok
  case thief =>
    intro t
    have hframe : s.deque.Frame { s.deque with arrays, allocated } s.limit
        (owner.limit s.deque.bot) := by
      refine ⟨le_refl _, le_refl _, fun _ hlt => ⟨lt_of_lt_of_le hlt hlimit.ge, by rw [harray], ?_⟩⟩
      exact fun a ha => congrArg (WSArray.get · s.deque.top) (hkeep a ha)
    exact (h.thief t).frame hframe
  case account =>
    have hcontents : WSDeque.between
        ⟨s.deque.top, s.deque.bot, s.deque.arr, s.deque.numResizes, arrays, allocated⟩
          s.deque.top (owner.limit s.deque.bot) = s.contents := by
      rw [hlimit]
      exact WSDeque.between_congr fun i _ _ => by rw [harray]
    simp only [State.contents, State.limit] at hcontents ⊢
    rw [hheld, hcontents]
    exact h.account

/-! ## Steps of `Ci_WSDeque_Take` -/

section

variable {bot arr top : Nat} {res : Option α}

theorem takeLoadBot (hwithin : s.Within) (howner : s.owner = .takeLoadBot) :
    ({ s with owner := .takeLoadArr (minus s.deque.bot 1) } : State α τ).Inv := by
  have hlimit : s.limit = s.deque.bot := by simp [State.limit, howner, Owner.limit]
  have hpos : 1 ≤ s.deque.bot := hlimit ▸ h.top_pos.trans h.top_le
  have hminus := minus_eq hpos (hlimit ▸ h.limit_lt hwithin)
  refine h.setOwner howner rfl rfl ?_ rfl
  simp only [Owner.Ok, hminus]
  omega

theorem takeStoreBot (howner : s.owner = .takeStoreBot bot arr) :
    ({ s with deque := { s.deque with bot }, owner := .takeLoadTop bot arr } : State α τ).Inv := by
  have hok := h.ok_of howner
  refine h.relabel howner bot s.deque.numResizes s.returned ?_ rfl ⟨rfl, hok.2⟩ rfl
  simp [Owner.limit, hok.1]

theorem takeLoadTop_lt (howner : s.owner = .takeLoadTop bot arr) (hlt : s.deque.top < bot) :
    ({ s with owner := .takeGet bot arr s.deque.top } : State α τ).Inv := by
  obtain ⟨hbot, harr⟩ := h.ok_of howner
  have hlimit : s.limit = bot + 1 := by simp [State.limit, howner, Owner.limit, hbot]
  have hlimit' : (Owner.takeGet bot arr s.deque.top : Owner α).limit s.deque.bot = bot := by
    simp [Owner.limit, hlt, hbot]
  have hroom := h.room
  have hcount := h.limit_le
  rw [hlimit] at hroom hcount
  constructor
  case allocated => exact h.allocated.trans (by rw [howner]; rfl)
  case size => exact h.size
  case top_pos => exact h.top_pos
  case top_le => exact hlt.le.trans hlimit'.ge
  case room => exact hlimit'.le.trans (show bot ≤ s.deque.top + s.deque.array.size by omega)
  case limit_le => exact hlimit'.le.trans (show bot ≤ s.pushed.length + 1 by omega)
  case owner => exact ⟨hbot, harr, hlt.le, le_refl _⟩
  case thief =>
    intro t
    refine (h.thief t).frame ⟨le_refl _, le_refl _, fun _ _ => ⟨?_, rfl, fun _ _ => rfl⟩⟩
    exact lt_of_lt_of_le hlt hlimit'.ge
  case account =>
    have hbefore := h.account
    have hcontents : s.contents = s.deque.between s.deque.top bot ++ [s.deque.array.get bot] := by
      rw [State.contents, hlimit, WSDeque.between_concat hlt.le]
    rw [howner, hcontents] at hbefore
    simp only [Owner.held, append_nil] at hbefore
    simp only [State.contents, State.limit, hlimit', Owner.held, hlt, if_true, append_assoc]
    refine hbefore.trans (List.Perm.append_left _ ?_)
    rw [harr]
    exact perm_append_comm

theorem takeLoadTop (howner : s.owner = .takeLoadTop bot arr)
    (hstep : s.ownerStep = some s') : s'.Inv := by
  obtain ⟨hbot, harr⟩ := h.ok_of howner
  have hlimit : s.limit = bot + 1 := by simp [State.limit, howner, Owner.limit, hbot]
  simp only [ownerStep, howner] at hstep
  split at hstep
  next hle =>
    cases hstep
    cases hle.lt_or_eq with
    | inl hlt => exact h.takeLoadTop_lt howner hlt
    | inr heq =>
      refine h.setOwner howner ?_ rfl ⟨hbot, harr, hle, le_refl _⟩ ?_
      · simp [Owner.limit, heq]
      · simp [Owner.held, heq]
  next hempty =>
    cases hstep
    have htop := hlimit ▸ h.top_le
    exact h.setOwner howner rfl rfl ⟨hbot, by omega⟩ rfl

theorem takeGet (howner : s.owner = .takeGet bot arr top) (hstep : s.ownerStep = some s') :
    s'.Inv := by
  obtain ⟨hbot, harr, hle, hread⟩ := h.ok_of howner
  simp only [ownerStep, howner] at hstep
  split at hstep
  next heq =>
    cases hstep
    refine h.setOwner howner ?_ rfl ⟨hbot, heq, heq ▸ hread, fun _ => by rw [harr]; rfl⟩ ?_
    · simp [Owner.limit, heq]
    · simp [Owner.held, heq]
  next hne =>
    cases hstep
    have hlt : top < bot := by omega
    have hheld : (Owner.takeGet bot arr top).held s.deque = [(s.deque.arrays arr).get bot] :=
      if_pos hlt
    obtain ⟨x, hx⟩ := h.exists_some
      (mem_append_left _ (by rw [howner, hheld]; exact mem_singleton_self _))
    refine h.relabel howner s.deque.bot s.deque.numResizes _ ?_ rfl trivial ?_
    · simp [Owner.limit, hlt]
    · rw [hheld, hx]
      simp [Owner.held]

theorem takeCas (hwithin : s.Within) (howner : s.owner = .takeCas bot top res)
    (hstep : s.ownerStep = some s') : s'.Inv := by
  obtain ⟨hbot, heq, hread, hres⟩ := h.ok_of howner
  have hlimit : s.limit = bot + 1 := by simp [State.limit, howner, Owner.limit, hbot]
  have htop := hlimit ▸ h.top_le
  have hroom := h.room
  have hbound := h.limit_lt hwithin
  have hsize := h.array_sizeOk.pos
  rw [hlimit] at hroom hbound
  simp only [ownerStep, howner] at hstep
  split at hstep
  next hsame =>
    cases hstep
    subst heq
    have hincr : incr top = top + 1 := incr_eq hbound
    have hcontents : s.contents = [s.deque.array.get top] := by
      rw [State.contents, hlimit, hsame, WSDeque.between_cons (by omega), WSDeque.between_self]
    obtain ⟨x, hx⟩ := h.exists_some (mem_append_right _
      (by rw [hcontents]; exact mem_singleton_self _))
    constructor
    case allocated => exact h.allocated.trans (by rw [howner]; rfl)
    case size => exact h.size
    case top_pos =>
      simp only [hincr]
      omega
    case top_le => simp [State.limit, Owner.limit, hbot, hincr]
    case room =>
      change s.deque.bot + 1 ≤ incr top + s.deque.array.size
      omega
    case limit_le =>
      have := hlimit ▸ h.limit_le
      simpa [State.limit, Owner.limit, hbot] using this
    case owner => exact ⟨hbot, hincr⟩
    case thief =>
      intro t
      have hframe : s.deque.Frame { s.deque with top := incr top } s.limit (s.deque.bot + 1) :=
        .of_lt (by simp only [hincr]; omega) le_rfl
      exact (h.thief t).frame hframe
    case account =>
      have hbefore := h.account
      rw [howner, hcontents, ← hres hsame] at hbefore
      have hobj : res = some x := (hres hsame).trans hx
      have hempty : WSDeque.between
          ⟨incr top, s.deque.bot, s.deque.arr, s.deque.numResizes, s.deque.arrays,
            s.deque.allocated⟩
            (incr top) (s.deque.bot + 1) = [] := by
        rw [hincr, hbot, WSDeque.between_self]
      simpa [State.contents, State.limit, Owner.limit, Owner.held, hempty, hobj] using hbefore
  next hother =>
    cases hstep
    exact h.setOwner howner rfl rfl ⟨hbot, by omega⟩ rfl

theorem takeRestoreBot (hwithin : s.Within) (howner : s.owner = .takeRestoreBot bot res) :
    ({ s with deque := { s.deque with bot := incr bot } }.ownerReturns res : State α τ).Inv := by
  obtain ⟨hbot, htop⟩ := h.ok_of howner
  have hlimit : s.limit = bot + 1 := by simp [State.limit, howner, Owner.limit, hbot]
  have hincr : incr bot = bot + 1 := incr_eq (hlimit ▸ h.limit_lt hwithin)
  refine h.relabel howner (incr bot) s.deque.numResizes _ ?_ rfl trivial ?_
  · simp [Owner.limit, hincr, hbot]
  · simp [Owner.held]

end

/-! ## Steps of `Ci_WSDeque_Push` -/

section

variable {obj : α} {bot top arr newArr i : Nat} {val : Option α}

theorem pushLoadTop (howner : s.owner = .pushLoadTop obj bot) :
    ({ s with owner := .pushLoadArr obj bot s.deque.top } : State α τ).Inv := by
  have hbot : s.deque.bot = bot := h.ok_of howner
  have hlimit : s.limit = bot := by simp [State.limit, howner, Owner.limit, hbot]
  exact h.setOwner howner rfl rfl ⟨hbot, le_refl _, hlimit ▸ h.top_le, hlimit ▸ h.room⟩ rfl

theorem growLoop {arrays : Nat → WSArray α} {allocated : Nat}
    (hkeep : ∀ a ≤ s.deque.arr, arrays a = s.deque.arrays a)
    (hsize : ∀ i < allocated, (arrays i).SizeOk) (hallocated : allocated = s.deque.arr + 2)
    (hlimit : s.limit = s.deque.bot) (hheld : s.owner.held s.deque = [])
    (hgrowing : WSDeque.Growing { s.deque with arrays, allocated } bot top newArr i)
    (hi : i ≤ bot) :
    ({ s with deque := { s.deque with arrays, allocated } }.growLoop obj bot top s.deque.arr newArr
      i :
      State α τ).Inv := by
  unfold State.growLoop
  split
  next hlt =>
    exact h.setArrays hkeep hsize hallocated hlimit.symm ⟨hgrowing, rfl, hlt⟩ hheld.symm
  next hend =>
    obtain rfl : i = bot := by omega
    exact h.setArrays hkeep hsize hallocated hlimit.symm hgrowing hheld.symm

theorem grow (hpushing : s.deque.Pushing bot top) (hlimit : s.limit = s.deque.bot)
    (hheld : s.owner.held s.deque = []) (hfrom : s.owner.arraysFromCurrent = 1)
    (hstep : s.grow obj bot top s.deque.arr = some s') : s'.Inv := by
  have hallocated : s.deque.allocated = s.deque.arr + 1 := hfrom ▸ h.allocated
  unfold State.grow at hstep
  split at hstep
  next => simp at hstep
  next fresh hnew =>
    cases hstep
    obtain ⟨hfresh, hdouble⟩ := h.array_sizeOk.new hnew
    have hkeep : ∀ a ≤ s.deque.arr,
        Function.update s.deque.arrays s.deque.allocated fresh a = s.deque.arrays a :=
      fun a ha => update_of_ne (by omega) _ _
    have hthis : Function.update s.deque.arrays s.deque.allocated fresh s.deque.allocated = fresh :=
      update_self ..
    refine h.growLoop hkeep (fun i hi => ?_) (by omega) hlimit hheld ?_ hpushing.le
    · by_cases hlast : i = s.deque.allocated
      · rw [hlast, hthis]
        exact hfresh
      · rw [update_of_ne hlast]
        exact h.size i (by omega)
    · refine ⟨⟨hpushing.bot_eq, hpushing.read_le, hpushing.le, ?_⟩, hallocated, ?_, le_refl _, ?_⟩
      · simpa [WSDeque.array, hkeep s.deque.arr le_rfl] using hpushing.room
      · simpa [WSDeque.array, hkeep s.deque.arr le_rfl] using hdouble
      · intro j hle hlt
        omega

theorem pushLoadArr (hwithin : s.Within) (howner : s.owner = .pushLoadArr obj bot top)
    (hstep : s.ownerStep = some s') : s'.Inv := by
  have hpushing : s.deque.Pushing bot top := h.ok_of howner
  have hlimit : s.limit = s.deque.bot := by simp [State.limit, howner, Owner.limit]
  have hbound := h.limit_lt hwithin
  rw [hlimit, hpushing.bot_eq] at hbound
  simp only [ownerStep, howner, minus_eq hpushing.le hbound, h.array_sizeOk.minus] at hstep
  split at hstep
  next => exact h.grow hpushing hlimit (by rw [howner]; rfl) (by rw [howner]; rfl) hstep
  next hfree =>
    cases hstep
    have hpos := h.array_sizeOk.pos
    have hle := hpushing.le
    exact h.setOwner howner rfl rfl ⟨⟨hpushing, by omega⟩, rfl⟩ rfl

theorem growPut (howner : s.owner = .growPut obj bot top arr newArr i val) :
    ({ s with deque := s.deque.putIn newArr i val }.growLoop obj bot top arr newArr (i + 1) :
      State α τ).Inv := by
  obtain ⟨hgrowing, rfl, hlt, rfl⟩ := h.ok_of howner
  have hallocated : s.deque.allocated = s.deque.arr + 2 := h.allocated_of howner
  have hnewArr := hgrowing.newArr_eq
  have hroom := hgrowing.room
  have hnewSize := h.size newArr (by omega)
  have hkeep : ∀ a, a ≠ newArr →
      (s.deque.putIn newArr i (s.deque.array.get i)).arrays a = s.deque.arrays a :=
    fun a ha => update_of_ne ha _ _
  have hcurrent : s.deque.arr ≠ newArr := by omega
  have harray : (s.deque.putIn newArr i (s.deque.array.get i)).array = s.deque.array :=
    hkeep s.deque.arr hcurrent
  have hthis : (s.deque.putIn newArr i (s.deque.array.get i)).arrays newArr =
      (s.deque.arrays newArr).put i (s.deque.array.get i) := update_self ..
  refine h.growLoop (fun a ha => hkeep a (by omega)) (fun j hj => ?_) hallocated ?_ ?_ ?_ hlt
  · by_cases hlast : j = newArr
    · rw [hlast]
      exact (congrArg WSArray.SizeOk hthis).mpr (hnewSize.put i _)
    · exact (congrArg WSArray.SizeOk (hkeep j hlast)).mpr (h.size j hj)
  · simp [State.limit, howner, Owner.limit]
  · rw [howner]
    rfl
  · constructor
    case toPushing =>
      refine ⟨hgrowing.bot_eq, hgrowing.read_le, hgrowing.le, hroom.trans (le_of_eq ?_)⟩
      exact congrArg (fun array : WSArray α => top + array.size) harray.symm
    case newArr_eq => exact hnewArr
    case size =>
      change ((s.deque.putIn newArr i (s.deque.array.get i)).arrays newArr).size =
        (s.deque.putIn newArr i (s.deque.array.get i)).array.size * 2
      rw [harray, hthis]
      exact hgrowing.size
    case lower => exact Nat.le_succ_of_le hgrowing.lower
    case copied =>
      intro j hle hj
      change ((s.deque.putIn newArr i (s.deque.array.get i)).arrays newArr).get j =
        (s.deque.putIn newArr i (s.deque.array.get i)).array.get j
      rw [harray, hthis]
      cases (Nat.lt_succ_iff.mp hj).lt_or_eq with
      | inl hbefore =>
        rw [hnewSize.get_put hbefore (by rw [hgrowing.size]; omega)]
        exact hgrowing.copied j hle hbefore
      | inr hsame => rw [hsame, WSArray.get_put_self]

theorem pushStoreArr (howner : s.owner = .pushStoreArr obj bot top newArr) :
    ({ s with
      deque := { s.deque with arr := newArr }
      owner := .pushReloadArr obj bot top } : State α τ).Inv := by
  have hgrowing : s.deque.Growing bot top newArr bot := h.ok_of howner
  have hlimit : s.limit = bot := by simp [State.limit, howner, Owner.limit, hgrowing.bot_eq]
  have hlimit' : (Owner.pushReloadArr obj bot top).limit s.deque.bot = bot := hgrowing.bot_eq
  have hallocated : s.deque.allocated = s.deque.arr + 2 := h.allocated_of howner
  have hnewArr := hgrowing.newArr_eq
  have hread := hgrowing.read_le
  have hpos := h.array_sizeOk.pos
  have hroom := h.room
  have hroom' := hgrowing.room
  have hsize : (s.deque.arrays newArr).size = s.deque.array.size * 2 := hgrowing.size
  rw [hlimit] at hroom
  constructor
  case allocated =>
    simp only [Owner.arraysFromCurrent]
    omega
  case size => exact h.size
  case top_pos => exact h.top_pos
  case top_le => exact h.top_le.trans (hlimit.trans hlimit'.symm).le
  case room =>
    refine hlimit'.le.trans ?_
    change bot ≤ s.deque.top + (s.deque.arrays newArr).size
    omega
  case limit_le => exact (hlimit'.trans hlimit.symm).le.trans h.limit_le
  case owner =>
    have hwide : top + s.deque.array.size ≤ top + (s.deque.arrays newArr).size := by omega
    refine ⟨⟨hgrowing.bot_eq, hread, hgrowing.le, hroom'.trans hwide⟩, ?_⟩
    change bot < top + (s.deque.arrays newArr).size
    omega
  case thief =>
    intro t
    have hframe : s.deque.Frame { s.deque with arr := newArr } s.limit
        ((Owner.pushReloadArr obj bot top).limit s.deque.bot) := by
      refine ⟨le_refl _, by simp only [hnewArr]; omega, fun _ hlt => ⟨?_, ?_, fun _ _ => rfl⟩⟩
      · rw [hlimit']
        exact hlimit ▸ hlt
      · exact hgrowing.copied _ hread (hlimit ▸ hlt)
    exact (h.thief t).frame hframe
  case account =>
    have hbefore := h.account
    have hcontents : WSDeque.between { s.deque with arr := newArr } s.deque.top s.deque.bot =
        s.contents := by
      rw [State.contents, hlimit, hgrowing.bot_eq]
      refine WSDeque.between_congr fun j hle hj => hgrowing.copied j (hread.trans hle) hj
    rw [howner] at hbefore
    simpa [State.contents, State.limit, Owner.limit, Owner.held, hcontents] using hbefore

theorem pushPut (howner : s.owner = .pushPut obj bot top arr) :
    ({ s with
      deque := s.deque.putIn arr bot (some obj)
      owner := .pushStoreBot obj bot top } : State α τ).Inv := by
  obtain ⟨hplacing, rfl⟩ := h.ok_of howner
  have hlimit : s.limit = bot := by simp [State.limit, howner, Owner.limit, hplacing.bot_eq]
  have hlimit' : (Owner.pushStoreBot obj bot top).limit s.deque.bot = bot := hplacing.bot_eq
  have hallocated : s.deque.allocated = s.deque.arr + 1 := h.allocated_of howner
  have hok := h.array_sizeOk
  have harray : (s.deque.putIn s.deque.arr bot (some obj)).array =
      s.deque.array.put bot (some obj) := update_self ..
  have hothers : ∀ a, a ≠ s.deque.arr →
      (s.deque.putIn s.deque.arr bot (some obj)).arrays a = s.deque.arrays a :=
    fun a ha => update_of_ne ha _ _
  have hread := hplacing.read_le
  have hfree := hplacing.free
  -- the objects before the new one stay where they are
  have hget : ∀ j, s.deque.top ≤ j → j < bot →
      (s.deque.array.put bot (some obj)).get j = s.deque.array.get j :=
    fun j hle hlt => hok.get_put hlt (by omega)
  constructor
  case allocated => exact hallocated
  case size =>
    intro a ha
    by_cases hthis : a = s.deque.arr
    · rw [hthis]
      exact (congrArg WSArray.SizeOk harray).mpr (hok.put bot (some obj))
    · exact (congrArg WSArray.SizeOk (hothers a hthis)).mpr (h.size a ha)
  case top_pos => exact h.top_pos
  case top_le => exact h.top_le.trans (hlimit.trans hlimit'.symm).le
  case room =>
    refine (hlimit'.trans hlimit.symm).le.trans (h.room.trans (le_of_eq ?_))
    rw [harray]
    rfl
  case limit_le => exact (hlimit'.trans hlimit.symm).le.trans h.limit_le
  case owner =>
    refine ⟨⟨⟨hplacing.bot_eq, hread, hplacing.le, ?_⟩, ?_⟩, ?_⟩
    · rw [harray]
      exact hplacing.room
    · rw [harray]
      exact hfree
    · rw [harray, WSArray.get_put_self]
  case thief =>
    intro t
    have hframe : s.deque.Frame (s.deque.putIn s.deque.arr bot (some obj)) s.limit
        ((Owner.pushStoreBot obj bot top).limit s.deque.bot) := by
      refine ⟨le_refl _, le_refl _, fun _ hlt => ⟨?_, ?_, fun a ha => ?_⟩⟩
      · rw [hlimit']
        exact hlimit ▸ hlt
      · rw [harray]
        exact hget _ le_rfl (hlimit ▸ hlt)
      · by_cases hthis : a = s.deque.arr
        · rw [hthis]
          exact (congrArg (WSArray.get · s.deque.top) harray).trans (hget _ le_rfl (hlimit ▸ hlt))
        · rw [hothers a hthis]
    exact (h.thief t).frame hframe
  case account =>
    have hbefore := h.account
    have hcontents : (s.deque.putIn s.deque.arr bot (some obj)).between s.deque.top s.deque.bot =
        s.contents := by
      rw [State.contents, hlimit, hplacing.bot_eq]
      refine WSDeque.between_congr fun j hle hj => ?_
      rw [harray]
      exact hget j hle hj
    rw [howner, ← hcontents] at hbefore
    exact hbefore

theorem pushStoreBot (howner : s.owner = .pushStoreBot obj bot top)
    (hwithin : (s.pushed ++ [obj]).length + 1 < sizeMax) :
    ({ s with
      deque := { s.deque with bot := incr bot }
      owner := .idle
      pushed := s.pushed ++ [obj] } : State α τ).Inv := by
  obtain ⟨hplacing, hget⟩ := h.ok_of howner
  have hlimit : s.limit = bot := by simp [State.limit, howner, Owner.limit, hplacing.bot_eq]
  have hcount := hlimit ▸ h.limit_le
  have htop := hlimit ▸ h.top_le
  have hread := hplacing.read_le
  have hfree := hplacing.free
  have hincr : incr bot = bot + 1 := incr_eq (by simp at hwithin; omega)
  constructor
  case allocated => exact h.allocated.trans (by rw [howner]; rfl)
  case size => exact h.size
  case top_pos => exact h.top_pos
  case top_le =>
    simp only [State.limit, Owner.limit, hincr]
    omega
  case room =>
    simp only [State.limit, Owner.limit, hincr]
    change bot + 1 ≤ s.deque.top + s.deque.array.size
    omega
  case limit_le =>
    simp only [State.limit, Owner.limit, hincr, length_append, length_singleton]
    omega
  case owner => trivial
  case thief =>
    intro t
    have hframe : s.deque.Frame { s.deque with bot := incr bot } s.limit (incr bot) := by
      refine ⟨le_refl _, le_refl _, fun _ hlt => ⟨?_, rfl, fun _ _ => rfl⟩⟩
      omega
    exact (h.thief t).frame hframe
  case account =>
    have hcontents : WSDeque.between { s.deque with bot := incr bot } s.deque.top (incr bot) =
        s.contents ++ [some obj] := by
      rw [hincr, WSDeque.between_concat htop, State.contents, hlimit, ← hget]
      rfl
    have hbefore := (h.account).append_right [some obj]
    rw [howner] at hbefore
    simpa [State.contents, State.limit, Owner.limit, Owner.held, hcontents] using hbefore

end

end State.Inv

end CinderX.ParallelGC
