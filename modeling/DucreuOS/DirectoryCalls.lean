import DucreuOS.Hierarchy

/-! # Calls on a hierarchy

What `minix3_touch_reg`, `minix3_mkdir`, `minix3_rm` and `minix3_rmdir` do to the names of a
directory: a call adds one name, or it removes one, or it has written nothing. -/
namespace Minix3.FileOps

open ByteMemory LiveBlocks

section Calls

variable {dev : Mount} {fs : Fs} {bs : ℕ} {disk disk' : Mem} {parent n d k : Word}
  {name : CString} {b : Bool}

/-! ## Names that are refused -/

theorem touchCommon_bound {f_mode f_uid f_gid : BitVec 16} (ht : Tree dev.bs fs.disk)
    (hp : Reachable dev.bs fs.disk parent) (hb : Bound dev.bs fs.disk parent name) :
    Ensures ∅ (At fs) (touchCommon dev parent name f_mode f_uid f_gid) fun r m =>
      r = 4 ∧ At fs m := by
  apply onParent_sound (ht.reachable hp).2
  intro dir
  apply Ensures.allocate
  intro pn hpn
  apply (lookup_classified ht hp name).bind
  intro lookup
  apply Ensures.given
  intro hlookup
  apply Ensures.release hpn
  rw [if_pos fun hcode => hlookup.notFound_iff.mp hcode hb]
  exact ensures_pure _ fun m hm => ⟨rfl, hm⟩

theorem mkdir_bound (ht : Tree dev.bs fs.disk) (hp : Reachable dev.bs fs.disk parent)
    (hb : Bound dev.bs fs.disk parent name) :
    Ensures ∅ (At fs) (mkdir dev parent name) fun r m => r = 4 ∧ At fs m := by
  apply (touchCommon_bound ht hp hb).bind
  intro retval
  apply Ensures.given
  rintro rfl
  exact ensures_pure _ fun m hm => ⟨rfl, hm⟩

/-! ## What the calls do -/

/-- The name is added, for a new inode that is a directory if `b`. -/
structure Adds (bs : ℕ) (disk : Mem) (parent n : Word) (name : CString) (b : Bool) (disk' : Mem) :
    Prop where
  hierarchy : Hierarchy bs disk'
  unbound : ¬ Bound bs disk parent name
  fresh : ¬ InUse bs disk n
  kind : isDirectory bs disk' n = b
  inUse (m : Word) : InUse bs disk' m ↔ m = n ∨ InUse bs disk m
  mode (m : Word) : InUse bs disk m → isDirectory bs disk' m = isDirectory bs disk m
  bound (d : Word) : Reachable bs disk d → ∀ other k, BoundTo bs disk' d other k ↔
    BoundTo bs disk d other k ∨ (d = parent ∧ other = name ∧ k = n)

/-- The name and its inode, a directory if `b`, are removed. -/
structure Drops (bs : ℕ) (disk : Mem) (parent n : Word) (name : CString) (b : Bool) (disk' : Mem) :
    Prop where
  hierarchy : Hierarchy bs disk'
  bound : BoundTo bs disk parent name n
  kind : isDirectory bs disk n = b
  plain : Plain name
  only : OnlyName bs disk parent name n
  notParent : parent ≠ n
  inUse (m : Word) : InUse bs disk' m ↔ InUse bs disk m ∧ m ≠ n
  mode (m : Word) : InUse bs disk m → m ≠ n → isDirectory bs disk' m = isDirectory bs disk m
  left (d : Word) : Reachable bs disk d → d ≠ n → ∀ other k, BoundTo bs disk' d other k ↔
    BoundTo bs disk d other k ∧ k ≠ n
  leads (other : CString) (k : Word) : b = true → BoundTo bs disk n other k → k = n ∨ k = parent

/-- A directory that passes the checks leads only to the one that it is in. -/
theorem Hierarchy.leads {other : CString} (h : Hierarchy bs disk) (hn : Reachable bs disk n)
    (hr : Removable bs disk n) (honly : OnlyName bs disk parent name n)
    (hk : BoundTo bs disk n other k) : k = n ∨ k = parent := by
  have hnot {other : CString} {k : Word} (hplain : Plain other) : ¬ BoundTo bs disk n other k :=
    fun hk => h.two_entries hn hplain hk hr.size
  by_cases hplain : Plain other
  · exact absurd hk (hnot hplain)
  rw [Plain, not_and_or, not_not, not_not] at hplain
  rcases hplain with rfl | rfl
  · exact Or.inl ((h.directory n hn).binds_unique hk (h.own n hn))
  · obtain ⟨p, hup, hdir, habove⟩ := h.up n hn
    obtain rfl := (h.directory n hn).binds_unique hup hk
    rcases habove with ⟨-, h1⟩ | ⟨c, hc, hcn⟩
    · exact absurd h1 hr.notRoot
    · have hpn : p ≠ n := by
        rintro rfl
        exact hnot hc hcn
      exact Or.inr (honly p (.step hn hup hdir) hpn c hcn).1

/-- The other directories stay reachable. -/
theorem Drops.reachable (h : Hierarchy bs disk) (hp : Reachable bs disk parent)
    (hr : Drops bs disk parent n name b disk') (hd : Reachable bs disk d) (hdn : d ≠ n) :
    Reachable bs disk' d := by
  -- a way through `n` comes from `parent` and goes back there
  have hway : Reachable bs disk d ∧ (d ≠ n → Reachable bs disk' d) ∧
      (d = n → Reachable bs disk' parent) := by
    apply reachable_within (R := fun d => Reachable bs disk d ∧ (d ≠ n → Reachable bs disk' d) ∧
      (d = n → Reachable bs disk' parent)) _ _ hd
    · refine ⟨.root, fun _ => .root, ?_⟩
      rintro rfl
      exact absurd hr.bound (h.top parent name hp hr.plain)
    · rintro d other k ⟨hd, hne, heq⟩ hk hkdir
      refine ⟨.step hd hk hkdir, fun hkn => ?_, fun hkn => ?_⟩
      · by_cases hdn : d = n
        · subst hdn
          have hdir : b = true := hr.kind.symm.trans (h.reachable hd).2
          rcases hr.leads other k hdir hk with rfl | rfl
          · exact absurd rfl hkn
          · exact heq rfl
        · rw [← hr.mode k (h.entry d k other hd hk) hkn] at hkdir
          exact .step (hne hdn) ((hr.left d hd hdn other k).mpr ⟨hk, hkn⟩) hkdir
      · by_cases hdn : d = n
        · exact heq hdn
        · obtain ⟨rfl, -⟩ := hr.only d hd hdn other (hkn ▸ hk)
          exact hne hdn
  exact hway.2.1 hdn

variable (h : Hierarchy dev.bs fs.disk) (hp : Reachable dev.bs fs.disk parent)

include h hp

theorem touchReg_adds (hfits : name.chars.length < MX3_NAME_LEN)
    (hcan : Bound dev.bs fs.disk parent name ∨ CanTouch dev.bs fs parent 0) :
    Ensures ∅ (At fs) (touchReg dev parent name) fun r m =>
      (r = 4 ∧ Bound dev.bs fs.disk parent name ∧ At fs m) ∨
      (r = 0 ∧ ∃ n, Adds dev.bs fs.disk parent n name false m.fs.disk) := by
  have ht := h.toTree
  by_cases hb : Bound dev.bs fs.disk parent name
  · exact (touchCommon_bound ht hp hb).weaken fun _ _ hr => Or.inl ⟨hr.1, hb, hr.2⟩
  apply (touchCommon_sound ht hp (hcan.resolve_left hb)).weaken
  rintro r m (⟨-, hb', -⟩ | ⟨hr, hno, n, he, -⟩)
  · exact absurd hb' hb
  refine Or.inr ⟨hr, n, ?_⟩
  have hempty : ∀ i, (newInode (MX3_MODE_REGULAR ||| MX3_777) MX3_UID_MISHLER
      MX3_GID_MISHLER).zones i = 0 := fun _ => rfl
  have hfile : (newInode (MX3_MODE_REGULAR ||| MX3_777) MX3_UID_MISHLER
      MX3_GID_MISHLER).isDirectory = false := rfl
  refine ⟨he.hierarchy h hp hfits hno hempty rfl hfile, hno, he.fresh.not_inUse, ?_, he.inUse,
    fun _ hm => he.isDirectory hm, fun d hd other k => he.boundTo_iff ht hfits hd⟩
  rw [isDirectory, he.own]
  exact hfile

theorem mkdir_adds (hbs : 2 * dirEntrySize ≤ dev.bs) (hfits : name.chars.length < MX3_NAME_LEN)
    (hcan : Bound dev.bs fs.disk parent name ∨ CanTouch dev.bs fs parent 1) :
    Ensures ∅ (At fs) (mkdir dev parent name) fun r m =>
      (r = 4 ∧ Bound dev.bs fs.disk parent name ∧ At fs m) ∨
      (r = 0 ∧ ∃ n, Adds dev.bs fs.disk parent n name true m.fs.disk) := by
  have ht := h.toTree
  by_cases hb : Bound dev.bs fs.disk parent name
  · exact (mkdir_bound ht hp hb).weaken fun _ _ hr => Or.inl ⟨hr.1, hb, hr.2⟩
  apply (mkdir_sound ht hp (hcan.resolve_left hb) hbs hfits).weaken
  rintro r m (⟨-, hb', -⟩ | ⟨hr, hno, n, hm, -⟩)
  · exact absurd hb' hb
  exact Or.inr ⟨hr, n, hm.hierarchy h hp hno, hno, hm.fresh.not_inUse, hm.child, hm.inUse, hm.mode,
    hm.bound⟩

theorem rm_drops (hshallow : ∀ n, BoundTo dev.bs fs.disk parent name n →
      isDirectory dev.bs fs.disk n = false →
      Shallow dev.bs fs.disk (Minix3.getInode dev.bs fs.disk n)) :
    Ensures ∅ (At fs) (rm dev parent name) fun r m =>
      (r = MX3_RETURN_CODE_IS_DIRECTORY ∧ ¬ BoundToFile dev.bs fs.disk parent name ∧ At fs m) ∨
      (r = 0 ∧ ∃ n, Drops dev.bs fs.disk parent n name false m.fs.disk) := by
  have ht := h.toTree
  by_cases hb : BoundToFile dev.bs fs.disk parent name
  · obtain ⟨n, hb, hfile⟩ := hb
    have hplain := h.plain_of_file hp hb hfile
    have hnotDir (hdir : isDirectory dev.bs fs.disk n = true) : False := by
      rw [hfile] at hdir
      cases hdir
    have honly := h.onlyName hp hplain hb fun hdir => (hnotDir hdir).elim
    have hne : parent ≠ n := fun heq => hnotDir (heq ▸ (ht.reachable hp).2)
    have hwhole := h.whole n (ht.entry parent n name hp hb)
    apply (rm_sound ht hp hb hfile hwhole (hshallow n hb hfile) honly).weaken
    rintro r m ⟨hr, hremoved⟩
    exact Or.inr ⟨hr, n, h.remove hp hplain hb honly hremoved, hb, hfile, hplain, honly, hne,
      hremoved.inUse, fun m hm hmn => hremoved.isDirectory hm hmn, hremoved.bound,
      fun _ _ hdir => nomatch hdir⟩
  · apply (rm_returns ht hp name).weaken
    rintro r m (⟨-, hb'⟩ | hrefused)
    · exact absurd hb' hb
    · exact Or.inl hrefused

theorem rmdir_drops (hdot : name ≠ dot ∨ ¬ Removable dev.bs fs.disk parent) :
    Ensures ∅ (At fs) (rmdir dev parent name) fun r m =>
      (r ≠ 0 ∧ At fs m) ∨
      (r = 0 ∧ ∃ n, Drops dev.bs fs.disk parent n name true m.fs.disk) := by
  have ht := h.toTree
  by_cases hb : ∃ n, BoundTo dev.bs fs.disk parent name n ∧
    isDirectory dev.bs fs.disk n = true ∧ Removable dev.bs fs.disk n
  · obtain ⟨n, hb, hdir, hremovable⟩ := hb
    have hplain : Plain name := by
      constructor
      · rintro rfl
        obtain rfl := (h.directory parent hp).binds_unique (h.own parent hp) hb
        exact hdot.elim (fun hne => hne rfl) fun hno => hno hremovable
      · rintro rfl
        obtain ⟨p, hup, hpdir, habove⟩ := h.up parent hp
        obtain rfl := (h.directory parent hp).binds_unique hup hb
        rcases habove with ⟨rfl, -⟩ | ⟨c, hc, hcd⟩
        · exact hremovable.notRoot rfl
        · exact h.two_entries (.step hp hup hpdir) hc hcd hremovable.size
    have honly := h.onlyName hp hplain hb fun _ => hremovable.size
    have hne := h.not_own hp hplain hb hremovable.size
    apply (rmdir_sound ht hp hb hdir hremovable hne honly).weaken
    rintro r m ⟨hr, hremoved⟩
    exact Or.inr ⟨hr, n, h.remove hp hplain hb honly hremoved, hb, hdir, hplain, honly, hne,
      hremoved.inUse, fun m hm hmn => hremoved.isDirectory hm hmn, hremoved.bound,
      fun other k _ hk => h.leads (.step hp hb hdir) hremovable honly hk⟩
  · apply (rmdir_returns ht hp name).weaken
    intro r m hreturns
    cases hreturns with
    | notFound _ hm => exact Or.inl ⟨by decide, hm⟩
    | file _ hm => exact Or.inl ⟨by decide, hm⟩
    | refused _ _ _ hr hm => exact Or.inl ⟨by rcases hr with rfl | rfl <;> decide, hm⟩
    | removed hn hdir hremovable => exact absurd ⟨_, hn, hdir, hremovable⟩ hb

end Calls

end Minix3.FileOps
