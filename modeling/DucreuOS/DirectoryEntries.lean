import DucreuOS.Removal

/-! # Directories that change

What the names of a directory are after an entry has been appended or cleared, and in a file that
has been left alone. -/
namespace Minix3.FileOps

open ByteMemory

/-! ## The name of an entry -/

section Names

variable {m m' : Mem} {j : ℕ} {name other fname : CString} {n : Word}

theorem Named.length_le (h : Named m name j) (h' : Named m other j) :
    name.chars.length ≤ other.chars.length := by
  by_contra hlt
  have hin : other.chars.length < name.chars.length := by omega
  have hnul := h'.chars other.chars.length le_rfl
  rw [h.chars _ hin.le, List.getD_eq_default _ _ le_rfl, List.getD_eq_getElem _ _ hin] at hnul
  exact name.no_nul (hnul ▸ List.getElem_mem hin)

/-- An entry has one name. -/
theorem Named.unique (h : Named m name j) (h' : Named m other j) : name = other := by
  have hchars : name.chars = other.chars := by
    apply List.ext_getElem (le_antisymm (h.length_le h') (h'.length_le h))
    intro o ho ho'
    have hsame := (h.chars o ho.le).symm.trans (h'.chars o ho'.le)
    rwa [List.getD_eq_getElem _ _ ho, List.getD_eq_getElem _ _ ho'] at hsame
  cases name
  cases other
  cases hchars
  rfl

/-- The characters up to the first terminator. -/
theorem Terminated.named (h : Terminated m j) (hused : entryInode m j ≠ 0) :
    ∃ name, Named m name j := by
  obtain ⟨last, hlast, hnul⟩ := h
  have hex : ∃ o, m (j * dirEntrySize + 4 + o) = 0 := ⟨last, hnul⟩
  have hchar {o : ℕ} (ho : o < Nat.find hex) :
      (listed (window m (j * dirEntrySize + 4)) (Nat.find hex)).getD o 0
        = m (j * dirEntrySize + 4 + o) := getD_listed _ ho
  have hno : 0 ∉ listed (window m (j * dirEntrySize + 4)) (Nat.find hex) := by
    intro hmem
    obtain ⟨o, ho, hzero⟩ := List.mem_map.mp hmem
    exact Nat.find_min hex (List.mem_range.mp ho) hzero
  refine ⟨⟨_, hno⟩, hused, ?_, fun o ho => ?_⟩
  · rw [length_listed]
    exact (Nat.find_min' hex hnul).trans_lt hlast
  · rw [length_listed] at ho
    rcases ho.lt_or_eq with hlt | rfl
    · exact (hchar hlt).symm
    · rw [List.getD_eq_default _ _ (length_listed _ _).le]
      exact Nat.find_spec hex

/-- Entry `j` is the one that `minix3_touch_common` writes. -/
def IsEntry (m : Mem) (j : ℕ) (n : Word) (fname : CString) : Prop :=
  ∀ x < dirEntrySize, m (j * dirEntrySize + x) = dirEntry n fname x

theorem IsEntry.inode (h : IsEntry m j n fname) : entryInode m j = n := by
  apply load32_leByte
  intro x hx
  rw [h x (hx.trans (by decide)), dirEntry, if_pos hx]

theorem IsEntry.named (h : IsEntry m j n fname) (hn : n ≠ 0)
    (hfits : fname.chars.length < MX3_NAME_LEN) : Named m fname j where
  used := by rwa [h.inode]
  fits := hfits
  chars o ho := by
    simp only [MX3_NAME_LEN] at hfits
    rw [Nat.add_assoc, h _ (by unfold dirEntrySize; omega), dirEntry, if_neg (by omega),
      Nat.add_sub_cancel_left]

/-- Entry `j` has the bytes that it had. -/
def SameEntry (m m' : Mem) (j : ℕ) : Prop :=
  ∀ x < dirEntrySize, m' (j * dirEntrySize + x) = m (j * dirEntrySize + x)

theorem SameEntry.inode (h : SameEntry m m' j) : entryInode m' j = entryInode m j :=
  entryInode_congr h

theorem SameEntry.named_iff (h : SameEntry m m' j) : Named m' name j ↔ Named m name j :=
  ⟨fun hn => hn.congr fun x hx => (h x hx).symm, fun hn => hn.congr h⟩

end Names

/-! ## The entries of a directory -/

section Entries

variable {bs j : ℕ} {disk disk' : Mem} {dir dir' : Inode} {name fname : CString} {n k : Word}

theorem entries_mul (h : dirEntrySize ∣ dir.size.toNat) :
    entries dir * dirEntrySize = dir.size.toNat := Nat.div_mul_cancel h

theorem same_entry (h : ∀ k < dir.size.toNat, fileMem bs disk' dir' k = fileMem bs disk dir k)
    (hj : j < entries dir) : SameEntry (fileMem bs disk dir) (fileMem bs disk' dir') j := by
  intro x hx
  apply h
  have hle := Nat.mul_le_mul_right dirEntrySize (Nat.succ_le_of_lt hj)
  have hsize := Nat.div_mul_le_self dir.size.toNat dirEntrySize
  rw [Nat.succ_mul] at hle
  unfold entries at hle
  omega

/-- An entry in use has been bound. -/
theorem Directory.bound (h : Directory bs disk dir) (hj : j < entries dir)
    (hused : entryInode (fileMem bs disk dir) j ≠ 0) :
    ∃ name, Named (fileMem bs disk dir) name j ∧
      Binds bs disk dir name (entryInode (fileMem bs disk dir) j) := by
  obtain ⟨name, hname⟩ := (h.terminated j hj hused).named hused
  exact ⟨name, hname, j, hj, hname, rfl⟩

/-- Every entry in use is the one that it was. -/
theorem Directory.thinned (h : Directory bs disk dir) (hs : Sound bs disk' dir')
    (hsize : dir'.size = dir.size) (hblank : BlankTail bs disk' dir')
    (hold : ∀ j < entries dir, entryInode (fileMem bs disk' dir') j ≠ 0 →
      SameEntry (fileMem bs disk dir) (fileMem bs disk' dir') j) : Directory bs disk' dir' := by
  have hentries : entries dir' = entries dir := by rw [entries, hsize, entries]
  refine ⟨hs, h.block, hsize ▸ h.size, hblank, fun j hj hused => ?_,
    fun i j name hi hj hin hjn => ?_⟩
  · rw [hentries] at hj
    have hsame := hold j hj hused
    exact (h.terminated j hj (hsame.inode ▸ hused)).congr hsame
  · rw [hentries] at hi hj
    exact h.names i j name hi hj ((hold i hi hin.used).named_iff.mp hin)
      ((hold j hj hjn.used).named_iff.mp hjn)

theorem binds_same (hsize : dir'.size = dir.size)
    (hold : ∀ j < entries dir, SameEntry (fileMem bs disk dir) (fileMem bs disk' dir') j) :
    Binds bs disk' dir' name k ↔ Binds bs disk dir name k := by
  have hentries : entries dir' = entries dir := by rw [entries, hsize, entries]
  unfold Binds
  rw [hentries]
  refine exists_congr fun j => and_congr_right fun hj => ?_
  rw [(hold j hj).named_iff, (hold j hj).inode]

/-- The entries for `n` are not in use any more. -/
theorem binds_cleared (hsize : dir'.size = dir.size)
    (hgone : ∀ j < entries dir, entryInode (fileMem bs disk dir) j = n →
      entryInode (fileMem bs disk' dir') j = 0)
    (hold : ∀ j < entries dir, entryInode (fileMem bs disk dir) j ≠ n →
      SameEntry (fileMem bs disk dir) (fileMem bs disk' dir') j) :
    Binds bs disk' dir' name k ↔ Binds bs disk dir name k ∧ k ≠ n := by
  have hentries : entries dir' = entries dir := by rw [entries, hsize, entries]
  unfold Binds
  rw [hentries]
  constructor
  · rintro ⟨j, hj, hname, rfl⟩
    have hne : entryInode (fileMem bs disk dir) j ≠ n := fun heq => hname.used (hgone j hj heq)
    have hsame := hold j hj hne
    exact ⟨⟨j, hj, hsame.named_iff.mp hname, hsame.inode.symm⟩, hsame.inode ▸ hne⟩
  · rintro ⟨⟨j, hj, hname, rfl⟩, hne⟩
    have hsame := hold j hj hne
    exact ⟨j, hj, hsame.named_iff.mpr hname, hsame.inode⟩

/-- An entry has been appended. -/
structure Extended (bs : ℕ) (disk : Mem) (dir : Inode) (n : Word) (fname : CString) (disk' : Mem)
    (dir' : Inode) : Prop where
  sound : Sound bs disk' dir'
  size : dir'.size.toNat = dir.size.toNat + dirEntrySize
  blank : BlankTail bs disk' dir'
  old (k : ℕ) : k < dir.size.toNat → fileMem bs disk' dir' k = fileMem bs disk dir k
  entry (x : ℕ) : x < dirEntrySize →
    fileMem bs disk' dir' (dir.size.toNat + x) = dirEntry n fname x

namespace Extended

variable (he : Extended bs disk dir n fname disk' dir') (h : Directory bs disk dir)

include he

theorem entries_succ : entries dir' = entries dir + 1 := by
  rw [entries, he.size, Nat.add_div_right _ (by decide), entries]

theorem cases (hj : j < entries dir') : (j < entries dir ∧
    SameEntry (fileMem bs disk dir) (fileMem bs disk' dir') j) ∨ j = entries dir := by
  rw [he.entries_succ] at hj
  rcases (Nat.le_of_lt_succ hj).lt_or_eq with hlt | heq
  · exact Or.inl ⟨hlt, same_entry he.old hlt⟩
  · exact Or.inr heq

include h

theorem last : IsEntry (fileMem bs disk' dir') (entries dir) n fname := by
  intro x hx
  rw [entries_mul h.size]
  exact he.entry x hx

variable (hn : n ≠ 0) (hfits : fname.chars.length < MX3_NAME_LEN)

include hn hfits

theorem binds_iff : Binds bs disk' dir' name k ↔
    Binds bs disk dir name k ∨ (name = fname ∧ k = n) := by
  have hlast := he.last h
  constructor
  · rintro ⟨j, hj, hname, rfl⟩
    rcases he.cases hj with ⟨hlt, hsame⟩ | rfl
    · exact Or.inl ⟨j, hlt, hsame.named_iff.mp hname, hsame.inode.symm⟩
    · exact Or.inr ⟨hname.unique (hlast.named hn hfits), hlast.inode⟩
  · rintro (⟨j, hj, hname, rfl⟩ | ⟨rfl, rfl⟩)
    · have hsame := same_entry he.old hj
      exact ⟨j, by rw [he.entries_succ]; omega, hsame.named_iff.mpr hname, hsame.inode⟩
    · exact ⟨entries dir, by rw [he.entries_succ]; omega, hlast.named hn hfits, hlast.inode⟩

/-- The name must be new. -/
theorem directory (hno : ∀ k, ¬ Binds bs disk dir fname k) : Directory bs disk' dir' := by
  have hlast := he.last h
  -- an old entry does not have the new name
  have hother {i : ℕ} {name : CString} (hi : i < entries dir)
      (hin : Named (fileMem bs disk dir) name i)
      (hnew : Named (fileMem bs disk' dir') name (entries dir)) : False := by
    rw [hnew.unique (hlast.named hn hfits)] at hin
    exact hno _ ⟨i, hi, hin, rfl⟩
  refine ⟨he.sound, h.block, ?_, he.blank, fun j hj hused => ?_, fun i j name hi hj hin hjn => ?_⟩
  · rw [he.size]
    exact Nat.dvd_add h.size dvd_rfl
  · rcases he.cases hj with ⟨hlt, hsame⟩ | rfl
    · exact (h.terminated j hlt (hsame.inode ▸ hused)).congr hsame
    · refine ⟨fname.chars.length, hfits, ?_⟩
      rw [(hlast.named hn hfits).chars _ le_rfl, List.getD_eq_default _ _ le_rfl]
  · rcases he.cases hi with ⟨hi, hisame⟩ | rfl <;> rcases he.cases hj with ⟨hj, hjsame⟩ | rfl
    · exact h.names i j name hi hj (hisame.named_iff.mp hin) (hjsame.named_iff.mp hjn)
    · exact (hother hi (hisame.named_iff.mp hin) hjn).elim
    · exact (hother hj (hjsame.named_iff.mp hjn) hin).elim
    · rfl

end Extended

end Entries

end Minix3.FileOps
