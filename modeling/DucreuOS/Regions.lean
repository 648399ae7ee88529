import DucreuOS.Library.ForwardList
import DucreuOS.Library.Transition

/-! # Regions of the screen

The list of `regions.c`: its length, the accessor by position, insertion and the hit test. A walk
that would not end within the number of allocated regions, and the dereference of a null pointer,
have no result. -/
namespace Regions

open ForwardList Transition

abbrev Word := BitVec 32

/-- `region_llist_t`; `none` is `NULL`. -/
structure Region where
  xStart : Word
  xEnd : Word
  yStart : Word
  yEnd : Word
  value : Word
  next : Option ℕ
  deriving DecidableEq

/-- A list with the regions that `regions_new` has allocated. -/
structure RegionList where
  head : Option ℕ
  region : ℕ → Region
  live : Finset ℕ

variable (s : RegionList)

def RegionList.nextOf (a : ℕ) : Option ℕ := (s.region a).next

def RegionList.setNext (a : ℕ) (l : Option ℕ) : RegionList :=
  { s with region := Function.update s.region a { s.region a with next := l } }

/-- The loop has an empty body: `i` stays 0. -/
def listLen : Option ℤ := (find s.nextOf (fun _ => false) s.live.card s.head).map fun _ => 0

/-- `for(i = 0; i < pos; i++) rl = rl->next;` -/
def advance : ℕ → Option ℕ → Option (Option ℕ)
  | 0, rl => some rl
  | _ + 1, none => none
  | n + 1, some a => advance n (s.nextOf a)

def getAtPos (pos : ℤ) : Option (Option ℕ) := do
  let len ← listLen s
  if len ≤ pos then some none else advance s pos.toNat s.head

def insertAtPosition (insert : ℕ) (pos : ℤ) : Option (ℤ × RegionList) := do
  let len ← listLen s
  if len < pos then some (1, s)
  else if pos = 0 then some (0, { s.setNext insert s.head with head := some insert })
  else
    let prev ← getAtPos s (pos - 1)
    let next ← getAtPos s pos
    let prev ← prev
    some (0, (s.setNext prev (some insert)).setNext insert next)

def append (insert : ℕ) : Option (ℤ × RegionList) := do
  insertAtPosition s insert (← listLen s)

def prepend (insert : ℕ) : Option (ℤ × RegionList) := insertAtPosition s insert 0

/-- `regions_new`, which gets the node `new` from `kmalloc` -/
def regionsNew (new : ℕ) (x_start x_end y_start y_end value : Word) : RegionList :=
  { s with
    region := Function.update s.region new ⟨x_start, x_end, y_start, y_end, value, none⟩
    live := insert new s.live }

def pixelInRange (rl : Region) (x y : Word) : Bool :=
  if x < rl.xStart then false
  else if x > rl.xEnd then false
  else if y < rl.yStart then false
  else if y > rl.yEnd then false
  else true

def valueOfPoint (x y : Word) : Option Word :=
  (find s.nextOf (fun a => pixelInRange (s.region a) x y) s.live.card s.head).map fun
    | some a => (s.region a).value
    | none => 0

/-! ## The list that is represented -/

/-- The regions of `l`, each of them once, are the list. -/
structure IsList (l : List ℕ) : Prop where
  follows : Follows s.nextOf s.head l
  nodup : l.Nodup
  live : ∀ a ∈ l, a ∈ s.live

/-- The first region of `l` that has the point, or 0. -/
def firstValue (region : ℕ → Region) (l : List ℕ) (x y : Word) : Word :=
  match l.find? fun a => pixelInRange (region a) x y with
  | some a => (region a).value
  | none => 0

/-- All but the links. -/
def SameRegions (s s' : RegionList) : Prop :=
  s'.live = s.live ∧ ∀ a, { s'.region a with next := none } = { s.region a with next := none }

variable {s} {s' : RegionList} {l : List ℕ} {a new : ℕ} {x y : Word}

@[simp] theorem setNext_head (b : Option ℕ) : (s.setNext a b).head = s.head := rfl
@[simp] theorem setNext_live (b : Option ℕ) : (s.setNext a b).live = s.live := rfl

@[simp] theorem setNext_nextOf (b : Option ℕ) (c : ℕ) :
    (s.setNext a b).nextOf c = if c = a then b else s.nextOf c := by
  by_cases h : c = a <;> simp [RegionList.setNext, RegionList.nextOf, h]

theorem setNext_sameRegions (b : Option ℕ) : SameRegions s (s.setNext a b) := by
  refine ⟨rfl, fun c => ?_⟩
  by_cases h : c = a <;> simp [RegionList.setNext, h]

theorem IsList.length_le (h : IsList s l) : l.length ≤ s.live.card := by
  rw [← List.toFinset_card_of_nodup h.nodup]
  apply Finset.card_le_card
  intro a ha
  exact h.live a (List.mem_toFinset.1 ha)

/-- The length that the code computes of every list. -/
theorem IsList.listLen_eq (h : IsList s l) : listLen s = some 0 := by
  simp only [listLen, h.follows.find_eq h.length_le, Option.map_some]

theorem IsList.valueOfPoint_eq (h : IsList s l) :
    valueOfPoint s x y = some (firstValue s.region l x y) := by
  simp only [valueOfPoint, h.follows.find_eq h.length_le, Option.map_some, firstValue]

theorem IsList.insert_refused (h : IsList s l) {pos : ℤ} (hpos : 0 < pos) :
    insertAtPosition s new pos = some (1, s) := by
  simp only [insertAtPosition, h.listLen_eq, Option.bind_eq_bind, Option.bind_some, if_pos hpos]

/-- The list after an insertion at position 0. -/
theorem IsList.insert_first (h : IsList s l) (hnew : new ∉ l) (hlive : new ∈ s.live) :
    ∃ s', insertAtPosition s new 0 = some (0, s') ∧ IsList s' (new :: l) ∧ SameRegions s s' := by
  have hsame : SameRegions s (s.setNext new s.head) := setNext_sameRegions s.head
  refine ⟨{ s.setNext new s.head with head := some new }, ?_, ⟨?_, ?_, ?_⟩, hsame⟩
  · simp only [insertAtPosition, h.listLen_eq, Option.bind_eq_bind, Option.bind_some, lt_irrefl,
      if_false, if_true]
  · apply h.follows.prepend
    · exact (setNext_nextOf s.head new).trans (if_pos rfl)
    · intro c hc
      have hcn : c ≠ new := fun e => hnew (e ▸ hc)
      exact (setNext_nextOf s.head c).trans (if_neg hcn)
  · exact List.nodup_cons.2 ⟨hnew, h.nodup⟩
  · intro c hc
    rcases List.mem_cons.1 hc with rfl | hc
    · exact hlive
    · exact h.live c hc

theorem IsList.append_eq (h : IsList s l) : append s new = prepend s new := by
  simp only [append, prepend, h.listLen_eq, Option.bind_eq_bind, Option.bind_some]

theorem SameRegions.pixelInRange_eq (h : SameRegions s s') (a : ℕ) :
    pixelInRange (s'.region a) x y = pixelInRange (s.region a) x y := by
  have := h.2 a
  simp only [Region.mk.injEq, and_true] at this
  simp only [pixelInRange, this]

theorem SameRegions.value_eq (h : SameRegions s s') (a : ℕ) :
    (s'.region a).value = (s.region a).value := by
  have := h.2 a
  simp only [Region.mk.injEq, and_true] at this
  exact this.2.2.2.2

theorem SameRegions.firstValue_eq (h : SameRegions s s') :
    firstValue s'.region l x y = firstValue s.region l x y := by
  simp only [firstValue, h.pixelInRange_eq]
  cases l.find? fun a => pixelInRange (s.region a) x y with
  | none => rfl
  | some a => exact h.value_eq a

theorem firstValue_cons (region : ℕ → Region) :
    firstValue region (new :: l) x y = if pixelInRange (region new) x y
      then (region new).value else firstValue region l x y := by
  cases hp : pixelInRange (region new) x y <;> simp [firstValue, hp]

/-! ## Insertion -/

/-- What an insertion before position `pos` is to do to the list of `l`. -/
structure Inserts (s : RegionList) (l : List ℕ) (insert : ℕ) (pos : ℤ) : Prop where
  inserts : pos ≤ l.length → ∃ s', insertAtPosition s insert pos = some (0, s') ∧
    IsList s' (l.insertIdx pos.toNat insert) ∧ SameRegions s s'
  refuses : l.length < pos → ∃ r, r ≠ 0 ∧ insertAtPosition s insert pos = some (r, s)

/-- The call has put the region last. -/
def PutsLast (s : RegionList) (l : List ℕ) (insert : ℕ) : Prop :=
  ∃ s', append s insert = some (0, s') ∧ IsList s' (l ++ [insert]) ∧ SameRegions s s'

def PutsFirst (s : RegionList) (l : List ℕ) (insert : ℕ) : Prop :=
  ∃ s', prepend s insert = some (0, s') ∧ IsList s' (insert :: l) ∧ SameRegions s s'

/-- A region of the list has the point. -/
def Covered (s : RegionList) (l : List ℕ) (x y : Word) : Prop :=
  ∃ a ∈ l, pixelInRange (s.region a) x y = true

/-- Appending the region leaves the value of the point. -/
def AppendKeeps (s : RegionList) (insert : ℕ) (x y : Word) : Prop :=
  ∃ r s', append s insert = some (r, s') ∧ valueOfPoint s' x y = valueOfPoint s x y

theorem inserts_iff (h : IsList s l) (hnew : new ∉ l) (hlive : new ∈ s.live) {pos : ℤ}
    (hpos : 0 ≤ pos) : Inserts s l new pos ↔ pos = 0 ∨ l.length < pos := by
  constructor
  · intro hins
    by_contra hno
    obtain ⟨hpos', hle⟩ := not_or.1 hno
    obtain ⟨s', hins, -⟩ := hins.inserts (not_lt.1 hle)
    rw [h.insert_refused (by omega)] at hins
    simp at hins
  · rintro (rfl | hlt)
    · refine ⟨fun _ => h.insert_first hnew hlive, fun hlt => ?_⟩
      omega
    · refine ⟨fun hle => ?_, fun _ => ⟨1, one_ne_zero, h.insert_refused (by omega)⟩⟩
      omega

theorem IsList.putsFirst (h : IsList s l) (hnew : new ∉ l) (hlive : new ∈ s.live) :
    PutsFirst s l new := h.insert_first hnew hlive

/-- The list that a call leaves is one list only. -/
theorem IsList.unique {l' : List ℕ} (h : IsList s l) (h' : IsList s l') : l = l' :=
  h.follows.unique h'.follows

theorem putsLast_iff (h : IsList s l) (hnew : new ∉ l) (hlive : new ∈ s.live) :
    PutsLast s l new ↔ l = [] := by
  obtain ⟨s₁, hfirst, hlist, hsame⟩ := h.putsFirst hnew hlive
  constructor
  · rintro ⟨s', happ, hlast, -⟩
    rw [h.append_eq, hfirst] at happ
    obtain rfl : s₁ = s' := (Prod.ext_iff.1 (Option.some.inj happ)).2
    have hll : l ++ [new] = new :: l := hlast.unique hlist
    cases l with
    | nil => rfl
    | cons a l =>
      obtain rfl : a = new := (List.cons.inj hll).1
      exact absurd List.mem_cons_self hnew
  · rintro rfl
    exact ⟨s₁, h.append_eq.trans hfirst, hlist, hsame⟩

theorem appendKeeps_iff (h : IsList s l) (hnew : new ∉ l) (hlive : new ∈ s.live) :
    AppendKeeps s new x y ↔ pixelInRange (s.region new) x y = true →
      (s.region new).value = firstValue s.region l x y := by
  obtain ⟨s₁, hfirst, hlist, hsame⟩ := h.putsFirst hnew hlive
  have hvalue : valueOfPoint s₁ x y = some (if pixelInRange (s.region new) x y
      then (s.region new).value else firstValue s.region l x y) := by
    rw [hlist.valueOfPoint_eq, hsame.firstValue_eq, firstValue_cons]
  have hkeeps : AppendKeeps s new x y ↔ valueOfPoint s₁ x y = valueOfPoint s x y := by
    simp only [AppendKeeps, h.append_eq, hfirst, Option.some.injEq, Prod.mk.injEq]
    constructor
    · rintro ⟨_, _, ⟨-, rfl⟩, hv⟩
      exact hv
    · intro hv
      exact ⟨0, s₁, ⟨rfl, rfl⟩, hv⟩
  rw [hkeeps, hvalue, h.valueOfPoint_eq, Option.some.injEq]
  split_ifs with hp
  · exact ⟨fun hv _ => hv, fun hv => hv hp⟩
  · exact ⟨fun _ hp' => absurd hp' hp, fun _ => rfl⟩

/-- Where an insertion is made, where an appended region stands, and which points keep their
value when one is appended. -/
theorem regions_inserted_iff (s : RegionList) (l : List ℕ) (insert : ℕ) (h : IsList s l)
    (hnew : insert ∉ l) (hlive : insert ∈ s.live) :
    (∀ pos, 0 ≤ pos → (Inserts s l insert pos ↔ pos = 0 ∨ l.length < pos)) ∧
      PutsFirst s l insert ∧ (PutsLast s l insert ↔ l = []) ∧
      ∀ x y, Covered s l x y → (AppendKeeps s insert x y ↔
        (pixelInRange (s.region insert) x y = true →
          (s.region insert).value = firstValue s.region l x y)) :=
  ⟨fun _ => inserts_iff h hnew hlive, h.putsFirst hnew hlive, putsLast_iff h hnew hlive,
    fun _ _ _ => appendKeeps_iff h hnew hlive⟩

/-- One region that covers the screen, and a second one that covers its left half. -/
def oneRegion : RegionList where
  head := some 0
  region a := if a = 0 then ⟨0, 99, 0, 99, 1, none⟩ else ⟨0, 49, 0, 99, 2, none⟩
  live := {0, 1}

theorem oneRegion_isList : IsList oneRegion [0] :=
  ⟨⟨rfl, rfl⟩, List.nodup_singleton 0, by decide⟩

theorem regions_inserted_iff_one : Inserts oneRegion [0] 1 0 ∧ PutsFirst oneRegion [0] 1 ∧
    Inserts oneRegion [0] 1 2 := by
  obtain ⟨hins, hfirst, -⟩ :=
    regions_inserted_iff oneRegion [0] 1 oneRegion_isList (by decide) (by decide)
  exact ⟨(hins 0 (by decide)).2 (Or.inl rfl), hfirst, (hins 2 (by decide)).2 (Or.inr (by decide))⟩

/-- Nothing is inserted behind the only region, an appended one comes first, and the point at
(10, 10) changes its value. -/
theorem insert_behind_refused : IsList oneRegion [0] ∧ Covered oneRegion [0] 10 10 ∧
    ¬ Inserts oneRegion [0] 1 1 ∧ ¬ PutsLast oneRegion [0] 1 ∧ ¬ AppendKeeps oneRegion 1 10 10 := by
  refine ⟨oneRegion_isList, ⟨0, by decide, by decide⟩, ?_, ?_, ?_⟩
  · rw [inserts_iff oneRegion_isList (by decide) (by decide) (by decide)]
    decide
  · rw [putsLast_iff oneRegion_isList (by decide) (by decide)]
    decide
  · rw [appendKeeps_iff oneRegion_isList (by decide) (by decide)]
    decide

/-! ## Runs -/

/-- `SYSCALL_ADD_REGION` and the command of the console: a region from `kmalloc` with the given
bounds and value, prepended or appended. -/
inductive AddStep (s : RegionList) : Bool × Region → RegionList → Prop
  | add (last : Bool) (rl : Region) (new : ℕ) {r : ℤ} {s' : RegionList} (hnew : new ∉ s.live)
      (h : (if last then append else prepend)
        (regionsNew s new rl.xStart rl.xEnd rl.yStart rl.yEnd rl.value) new = some (r, s')) :
      AddStep s (last, rl) s'

theorem IsList.regionsNew (h : IsList s l) (hnew : new ∉ s.live) (rl : Region) :
    IsList (regionsNew s new rl.xStart rl.xEnd rl.yStart rl.yEnd rl.value) l ∧
      ∀ x y, firstValue (Function.update s.region new { rl with next := none }) l x y
        = firstValue s.region l x y := by
  have hne (c : ℕ) (hc : c ∈ l) : c ≠ new := fun e => hnew (e ▸ h.live c hc)
  refine ⟨⟨h.follows.congr fun c hc => ?_, h.nodup, fun c hc => ?_⟩, fun x y => ?_⟩
  · simp only [Regions.regionsNew, RegionList.nextOf, Function.update_of_ne (hne c hc)]
  · exact Finset.mem_insert_of_mem (h.live c hc)
  · have hfind : (l.find? fun a => pixelInRange
        (Function.update s.region new { rl with next := none } a) x y)
          = l.find? fun a => pixelInRange (s.region a) x y := by
      apply List.find?_congr
      intro c hc
      rw [Function.update_of_ne (hne c hc)]
    simp only [firstValue, hfind]
    cases hf : l.find? fun a => pixelInRange (s.region a) x y with
    | none => rfl
    | some c => simp only [Function.update_of_ne (hne c (List.mem_of_find?_eq_some hf))]

/-- The newest region wins, however it was added. -/
theorem AddStep.newest {last : Bool} {rl : Region} (h : IsList s l)
    (hadd : AddStep s (last, rl) s') : (∃ new, IsList s' (new :: l)) ∧
      ∀ x y, valueOfPoint s' x y
        = if pixelInRange rl x y then some rl.value else valueOfPoint s x y := by
  cases hadd with
  | add _ _ new hnew hcall =>
    obtain ⟨hlist, hold⟩ := h.regionsNew hnew rl
    have hnl : new ∉ l := fun hm => hnew (h.live new hm)
    obtain ⟨s₁, hfirst, hlist₁, hsame⟩ := hlist.putsFirst hnl (Finset.mem_insert_self new s.live)
    have hcall' : (if last then append else prepend)
        (Regions.regionsNew s new rl.xStart rl.xEnd rl.yStart rl.yEnd rl.value) new
          = some (0, s₁) := by
      cases last
      · exact hfirst
      · exact hlist.append_eq.trans hfirst
    obtain rfl : s₁ = s' := (Prod.ext_iff.1 (Option.some.inj (hcall'.symm.trans hcall))).2
    refine ⟨⟨new, hlist₁⟩, fun x y => ?_⟩
    rw [hlist₁.valueOfPoint_eq, hsame.firstValue_eq, firstValue_cons, h.valueOfPoint_eq]
    have hnewest : (Regions.regionsNew s new rl.xStart rl.xEnd rl.yStart rl.yEnd rl.value).region new
        = { rl with next := none } := Function.update_self ..
    have holder := hold x y
    rw [hnewest]
    change some (if pixelInRange rl x y = true then rl.value else
      firstValue (Function.update s.region new { rl with next := none }) l x y) = _
    rw [holder]
    split_ifs <;> rfl

/-- After every sequence of additions the list is well formed, so that the hit test ends. -/
theorem additions_keep_list {t : RegionList} (hrun : Execution AddStep s t) (h : ∃ l, IsList s l) :
    ∃ l, IsList t l := by
  refine hrun.invariant (I := fun s => ∃ l, IsList s l) ?_ h
  rintro s₁ ⟨last, rl⟩ s₂ ⟨l, hl⟩ hadd
  obtain ⟨new, hlist⟩ := (AddStep.newest hl hadd).1
  exact ⟨new :: l, hlist⟩

end Regions
