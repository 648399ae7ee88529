import DucreuOS.Strings
import DucreuOS.VfsCache

/-! # Path names

`vfs_get_path` builds a path from its end: `mstrtac` puts the name of each directory in front of
the names that are there already. Strings and directories lie in one memory. -/
namespace PathNames

open ByteMemory Strings

/-- A `char *`: its address, and how many bytes there are from there to the end of its array. -/
structure Pointer where
  address : ℕ
  room : ℕ

def array (m : Mem) (p : Pointer) : Chars := listed (window m p.address) p.room

def store (m : Mem) (p : Pointer) (i : ℕ) (c : Byte) : Option Mem :=
  if i < p.room then some (Function.update m (p.address + i) c) else none

/-- `dst[j] = src[i];` -/
def assign (dst : Pointer) (j : ℕ) (src : Pointer) (i : ℕ) (m : Mem) : Option Mem :=
  if i < src.room then store m dst j (m (src.address + i)) else none

/-- `for(i = lenb; i >= 0; i--)`, where `n` is the number of rounds -/
def shiftOver (b : Pointer) (lena n : ℕ) (m : Mem) : Option Mem :=
  (List.range n).reverse.foldlM (fun m i => assign b (i + lena) b i m) m

/-- `for(i = 0; i < lena; i++)` -/
def copyIn (a b : Pointer) (lena : ℕ) (m : Mem) : Option Mem :=
  (List.range lena).foldlM (fun m i => assign b i a i m) m

/-- `mstrtac` reports strings that are `NULL`. -/
def mstrtac (a b : Pointer) (m : Mem) : Option Mem :=
  if a.address = 0 ∨ b.address = 0 then some m
  else do
    let lena ← mstrlen (array m a)
    let lenb ← mstrlen (array m b)
    let m ← shiftOver b lena (lenb + 1) m
    copyIn a b lena m

/-- `sizeof(vfs_directory_t)` -/
def dirSize : ℕ := 104

/-- `cur_dir->name` -/
def dirName (cur_dir : ℕ) : Pointer := ⟨cur_dir, Vfs.VFS_FNAME_LENGTH⟩

/-- `cur_dir->parent` -/
def dirParent (m : Mem) (cur_dir : ℕ) : ℕ := (load64 m (cur_dir + 88)).toNat

/-- `while(cur_dir != NULL)`, in at most `fuel` rounds -/
def climb (fullname : Pointer) : ℕ → ℕ → Mem → Option Mem
  | 0, _, _ => none
  | fuel + 1, cur_dir, m =>
    if cur_dir = 0 then some m
    else do
      let m ← mstrtac (dirName cur_dir) fullname m
      if dirParent m cur_dir = cur_dir then some m
      else climb fullname fuel (dirParent m cur_dir) m

def vfsGetPath (fuel cur_dir : ℕ) (fullname : Pointer) (m : Mem) : Option Mem := do
  let m ← store m fullname 0 0
  climb fullname fuel cur_dir m

def vfsUpdatePwd (fuel v_dir_pwd : ℕ) (vfs_pwd : Pointer) (m : Mem) : Option Mem :=
  vfsGetPath fuel v_dir_pwd vfs_pwd m

/-! ## Strings in memory -/

variable {m m' m₁ : Mem} {a b p fullname : Pointer} {s t : List Byte} {n k lena fuel d : ℕ}

/-- Two arrays that do not overlap. -/
def Apart (a b : Pointer) : Prop :=
  a.address + a.room ≤ b.address ∨ b.address + b.room ≤ a.address

/-- Nothing but the first `n` bytes at `p` has changed. -/
def Within (p : Pointer) (n : ℕ) (m m' : Mem) : Prop :=
  ∀ x, x < p.address ∨ p.address + n ≤ x → m' x = m x

theorem Within.mono (h : Within p n m m') (hle : n ≤ k) : Within p k m m' := fun x hx =>
  h x (by omega)

theorem Within.trans {m'' : Mem} (h : Within p n m m') (h' : Within p n m' m'') :
    Within p n m m'' := fun x hx => (h' x hx).trans (h x hx)

theorem Within.array_eq (h : Within b n m m') (hn : n ≤ b.room) (hapart : Apart a b) :
    array m' a = array m a := by
  rw [Apart] at hapart
  exact listed_congr fun i hi => h _ (by omega)

theorem isString_array : IsString (array m p) s ↔
    0 ∉ s ∧ s.length < p.room ∧ listed (window m p.address) (s.length + 1) = s ++ [0] := by
  constructor
  · rintro ⟨hnul, t, ht⟩
    have hroom : p.room = s.length + 1 + t.length := by
      have hlen := congrArg List.length ht
      rw [array, length_listed, List.length_append, List.length_cons] at hlen
      omega
    refine ⟨hnul, by omega, ?_⟩
    rw [array, hroom, listed_add, List.append_cons] at ht
    exact (List.append_inj ht (by simp)).1
  · rintro ⟨hnul, hroom, hlisted⟩
    obtain ⟨k, hk⟩ := Nat.exists_eq_add_of_le (Nat.succ_le_of_lt hroom)
    refine ⟨hnul, listed (window (window m p.address) (s.length + 1)) k, ?_⟩
    rw [array, hk, listed_add, hlisted, List.append_assoc]
    rfl

theorem window_window (m : Mem) (a b : ℕ) : window (window m a) b = window m (a + b) := by
  funext i
  simp only [window, Nat.add_assoc]

theorem listed_blit (m : Mem) (a n : ℕ) (f : ℕ → Byte) : listed (window (blit m a n f) a) n = listed f n :=
  listed_congr fun i hi => by
    rw [window, blit_inside (by omega) (by omega), Nat.add_sub_cancel_left]

/-! ## One name in front -/

theorem assign_eq {dst src : Pointer} {i j : ℕ} (hj : j < dst.room) (hi : i < src.room) :
    assign dst j src i m =
      some (Function.update m (dst.address + j) (m (src.address + i))) := by
  rw [assign, if_pos hi, store, if_pos hj]

/-- From the top down no byte is overwritten before it has moved. -/
theorem shiftOver_eq (hroom : n + lena ≤ b.room) :
    shiftOver b lena n m = some (blit m (b.address + lena) n (window m b.address)) := by
  induction n generalizing m with
  | zero => rw [blit_zero]; rfl
  | succ n ih =>
    rw [shiftOver, List.range_succ, List.reverse_append, List.reverse_singleton,
      List.singleton_append, List.foldlM_cons, assign_eq (by omega) (by omega),
      Option.bind_eq_bind, Option.bind_some]
    refine (ih (by omega)).trans ?_
    congr 1
    funext x
    by_cases hx : b.address + lena ≤ x ∧ x < b.address + lena + n
    · rw [blit_inside hx.1 hx.2, blit_inside hx.1 (by omega), window, window,
        Function.update_of_ne (by omega)]
    · rw [blit_outside (by omega)]
      by_cases htop : x = b.address + (n + lena)
      · rw [htop, Function.update_self, blit_inside (by omega) (by omega), window]
        congr 1
        omega
      · rw [Function.update_of_ne htop, blit_outside (by omega)]

theorem copyIn_eq (hroom : n ≤ b.room) (hsrc : n ≤ a.room) (hapart : Apart a b) :
    copyIn a b n m = some (blit m b.address n (window m a.address)) := by
  induction n with
  | zero => rw [blit_zero]; rfl
  | succ n ih =>
    rw [Apart] at hapart
    have hcopied := ih (by omega) (by omega)
    rw [copyIn] at hcopied
    rw [copyIn, List.range_succ, List.foldlM_append, hcopied, Option.bind_eq_bind,
      Option.bind_some, List.foldlM_cons, assign_eq (by omega) (by omega), Option.bind_eq_bind,
      Option.bind_some, List.foldlM_nil]
    refine congrArg some ?_
    funext x
    by_cases htop : x = b.address + n
    · rw [htop, Function.update_self, blit_outside (by omega), blit_inside (by omega) (by omega),
        Nat.add_sub_cancel_left, window]
    · rw [Function.update_of_ne htop]
      by_cases hx : b.address ≤ x ∧ x < b.address + n
      · rw [blit_inside hx.1 hx.2, blit_inside hx.1 (by omega)]
      · rw [blit_outside (by omega), blit_outside (by omega)]

/-- What was at `x` is behind what is put there. -/
theorem listed_moved (m : Mem) (x n k : ℕ) (f : ℕ → Byte) :
    listed (window (blit (blit m (x + n) k (window m x)) x n f) x) (n + k) =
      listed f n ++ listed (window m x) k := by
  rw [listed_add, listed_blit, window_window]
  congr 1
  refine Eq.trans (listed_congr fun i _ => ?_) (listed_blit m (x + n) k (window m x))
  rw [window, window, blit_outside (by omega)]

/-- `b` becomes `a ++ b`. -/
structure Prepended (a b : Pointer) (s t : List Byte) (m m' : Mem) : Prop where
  prepended : IsString (array m' b) (s ++ t)
  unchanged : array m' a = array m a
  within : Within b ((s ++ t).length + 1) m m'

theorem mstrtac_eq (ha : IsString (array m a) s) (hb : IsString (array m b) t)
    (ha0 : a.address ≠ 0) (hb0 : b.address ≠ 0) (hapart : Apart a b)
    (hroom : (s ++ t).length < b.room) :
    ∃ m', mstrtac a b m = some m' ∧ Prepended a b s t m m' := by
  have hnull : ¬ (a.address = 0 ∨ b.address = 0) := not_or.2 ⟨ha0, hb0⟩
  obtain ⟨hsnul, hsroom, hs⟩ := isString_array.1 ha
  obtain ⟨htnul, -, ht⟩ := isString_array.1 hb
  obtain ⟨m₁, hm₁⟩ :
      ∃ m₁, m₁ = blit m (b.address + s.length) (t.length + 1) (window m b.address) := ⟨_, rfl⟩
  have hlen : (s ++ t).length = s.length + t.length := List.length_append
  have hshift : shiftOver b s.length (t.length + 1) m = some m₁ := by
    rw [hm₁]
    exact shiftOver_eq (by omega)
  have hshifted : Within b b.room m m₁ := fun x hx => by
    rw [hm₁, blit_outside (by omega)]
  have hcopy := copyIn_eq (m := m₁) (n := s.length) (by omega) (by omega) hapart
  have hwithin : Within b ((s ++ t).length + 1) m
      (blit m₁ b.address s.length (window m₁ a.address)) := fun x hx => by
    rw [blit_outside (by omega), hm₁, blit_outside (by omega)]
  refine ⟨_, ?_, ?_, hwithin.array_eq (by omega) hapart, hwithin⟩
  · rw [mstrtac, if_neg hnull, mstrlen_eq ha, mstrlen_eq hb, Option.bind_eq_bind,
      Option.bind_some, Option.bind_eq_bind, Option.bind_some, hshift]
    exact hcopy
  · refine isString_array.2 ⟨List.mem_append.not.2 (not_or.2 ⟨hsnul, htnul⟩), hroom, ?_⟩
    -- The name has not been shifted.
    have hname : listed (window m₁ a.address) s.length = s := by
      have hold := isString_array.1 (hshifted.array_eq le_rfl hapart ▸ ha)
      have hlisted := hold.2.2
      rw [listed_add] at hlisted
      exact (List.append_inj hlisted (length_listed _ _)).1
    rw [hlen, Nat.add_assoc, hm₁, listed_moved, ← hm₁, hname, ht, List.append_assoc]

/-! ## All names -/

/-- The directories from the root down to `d`, with their names. The root is its own parent. -/
inductive Chain (m : Mem) : ℕ → List (ℕ × List Byte) → Prop
  | root {d : ℕ} {s : List Byte} (hd : d ≠ 0) (hname : IsString (array m (dirName d)) s)
      (hparent : dirParent m d = d) : Chain m d [(d, s)]
  | child {d : ℕ} {s : List Byte} {nodes : List (ℕ × List Byte)} (hd : d ≠ 0) (hname : IsString (array m (dirName d)) s)
      (hparent : dirParent m d ≠ d) (h : Chain m (dirParent m d) nodes) :
      Chain m d (nodes ++ [(d, s)])

/-- The names one behind the other. -/
def path (nodes : List (ℕ × List Byte)) : List Byte := (nodes.map Prod.snd).flatten

theorem path_append (nodes : List (ℕ × List Byte)) (s : List Byte) :
    path (nodes ++ [(d, s)]) = path nodes ++ s := by
  simp [path]

/-- The bytes of a directory. -/
def dirArray (d : ℕ) : Pointer := ⟨d, dirSize⟩

/-- The name is inside the directory. -/
theorem apart_dirName (hapart : Apart (dirArray d) p) : Apart (dirName d) p := by
  simp only [Apart, dirArray, dirSize, dirName, Vfs.VFS_FNAME_LENGTH] at hapart ⊢
  omega

theorem Within.dirName_eq (h : Within p n m m') (hn : n ≤ p.room) (hapart : Apart (dirArray d) p) :
    array m' (dirName d) = array m (dirName d) :=
  h.array_eq hn (apart_dirName hapart)

theorem Within.dirParent_eq (h : Within p n m m') (hn : n ≤ p.room)
    (hapart : Apart (dirArray d) p) : dirParent m' d = dirParent m d := by
  simp only [Apart, dirArray, dirSize] at hapart
  rw [dirParent, dirParent, load64, load64, load32_congr fun i hi => h _ (by omega),
    load32_congr fun i hi => h _ (by omega)]

variable {nodes : List (ℕ × List Byte)}

/-- One round. -/
theorem mstrtac_dirName (hd : d ≠ 0) (hp : fullname.address ≠ 0)
    (hname : IsString (array m (dirName d)) s) (hapart : Apart (dirArray d) fullname)
    (hwithin : Within fullname fullname.room m m₁) (ht : IsString (array m₁ fullname) t)
    (hroom : (s ++ t).length < fullname.room) :
    ∃ m', mstrtac (dirName d) fullname m₁ = some m' ∧ IsString (array m' fullname) (s ++ t) ∧
      Within fullname ((s ++ t).length + 1) m₁ m' ∧ dirParent m' d = dirParent m d := by
  have hname₁ : IsString (array m₁ (dirName d)) s := (hwithin.dirName_eq le_rfl hapart).symm ▸ hname
  obtain ⟨m', hm', hprepended, -, hwithin'⟩ :=
    mstrtac_eq hname₁ ht hd hp (apart_dirName hapart) hroom
  refine ⟨m', hm', hprepended, hwithin', ?_⟩
  rw [hwithin'.dirParent_eq hroom hapart, hwithin.dirParent_eq le_rfl hapart]

/-- From the directory `d` on, in front of the names that have been written. -/
theorem climb_eq (hchain : Chain m d nodes)
    (hapart : ∀ node ∈ nodes, Apart (dirArray node.1) fullname) (hp : fullname.address ≠ 0)
    (hwithin : Within fullname fullname.room m m₁) (ht : IsString (array m₁ fullname) t)
    (hroom : (path nodes ++ t).length < fullname.room) (hfuel : nodes.length ≤ fuel) :
    ∃ m', climb fullname fuel d m₁ = some m' ∧ IsString (array m' fullname) (path nodes ++ t) ∧
      Within fullname ((path nodes ++ t).length + 1) m₁ m' := by
  induction hchain generalizing m₁ t fuel with
  | @root d s hd hname hparent =>
    obtain ⟨fuel, rfl⟩ : ∃ n, fuel = n + 1 := Nat.exists_eq_add_of_le' hfuel
    rw [show path [(d, s)] = s from List.append_nil s] at hroom ⊢
    obtain ⟨m', hm', hstring, hwithin', hparent'⟩ :=
      mstrtac_dirName hd hp hname (hapart _ (List.mem_singleton_self _)) hwithin ht hroom
    refine ⟨m', ?_, hstring, hwithin'⟩
    rw [climb, if_neg hd, hm', Option.bind_eq_bind, Option.bind_some,
      if_pos (hparent'.trans hparent)]
  | @child d s nodes hd hname hparent hchain ih =>
    rw [List.length_append, List.length_singleton] at hfuel
    obtain ⟨fuel, rfl⟩ := Nat.exists_eq_add_of_le' (Nat.le_of_add_left_le hfuel)
    rw [path_append, List.append_assoc] at hroom ⊢
    have hshort : (s ++ t).length ≤ (path nodes ++ (s ++ t)).length :=
      (List.suffix_append _ _).length_le
    obtain ⟨m₂, hm₂, hstring, hwithin₂, hparent₂⟩ :=
      mstrtac_dirName hd hp hname (hapart _ (List.mem_append_right _ (List.mem_singleton_self _)))
        hwithin ht (by omega)
    obtain ⟨m', hm', hstring', hwithin'⟩ :=
      ih (fun node hnode => hapart node (List.mem_append_left _ hnode))
        (hwithin.trans (hwithin₂.mono (by omega))) hstring hroom (Nat.le_of_succ_le_succ hfuel)
    refine ⟨m', ?_, hstring', (hwithin₂.mono (by omega)).trans hwithin'⟩
    rw [climb, if_neg hd, hm₂, Option.bind_eq_bind, Option.bind_some, hparent₂, if_neg hparent]
    exact hm'

theorem vfsGetPath_eq (hchain : Chain m d nodes)
    (hapart : ∀ node ∈ nodes, Apart (dirArray node.1) fullname) (hp : fullname.address ≠ 0)
    (hroom : (path nodes).length < fullname.room) (hfuel : nodes.length ≤ fuel) :
    ∃ m', vfsGetPath fuel d fullname m = some m' ∧ IsString (array m' fullname) (path nodes) ∧
      Within fullname ((path nodes).length + 1) m m' := by
  have hpos : 0 < fullname.room := Nat.zero_lt_of_lt hroom
  have hstore : Within fullname 1 m (Function.update m (fullname.address + 0) 0) := fun x hx =>
    Function.update_of_ne (by omega) _ _
  have hempty : IsString (array (Function.update m (fullname.address + 0) 0) fullname) [] :=
    isString_array.2 ⟨List.not_mem_nil, hpos, congrArg (· :: []) (Function.update_self _ _ _)⟩
  rw [← List.append_nil (path nodes)] at hroom ⊢
  obtain ⟨m', hm', hstring, hwithin⟩ :=
    climb_eq hchain hapart hp (hstore.mono hpos) hempty hroom hfuel
  refine ⟨m', ?_, hstring, (hstore.mono (Nat.le_add_left _ _)).trans hwithin⟩
  rw [vfsGetPath, store, if_pos hpos]
  exact hm'

/-! ## The cache -/

/-- The directories of the chain are in the cache as they are in memory. -/
def Mirrors (cache : Vfs.Cache) (m : Mem) (nodes : List (ℕ × List Byte)) : Prop :=
  ∀ node ∈ nodes, (cache node.1).name.chars = node.2 ∧ (cache node.1).parent = dirParent m node.1

variable {cache : Vfs.Cache} {names : List Byte}

theorem getPath_path (hchain : Chain m d nodes) (hcache : Mirrors cache m nodes)
    (hfuel : nodes.length ≤ fuel) : Vfs.getPath cache fuel d = some (path nodes) := by
  induction hchain generalizing fuel with
  | @root d s hd hname hparent =>
    obtain ⟨fuel, rfl⟩ : ∃ n, fuel = n + 1 := Nat.exists_eq_add_of_le' hfuel
    obtain ⟨hchars, hlink⟩ := hcache _ (List.mem_singleton_self _)
    rw [Vfs.getPath, if_pos (hlink.trans hparent), hchars]
    exact congrArg some (List.append_nil s).symm
  | @child d s nodes hd hname hparent hchain ih =>
    rw [List.length_append, List.length_singleton] at hfuel
    obtain ⟨fuel, rfl⟩ := Nat.exists_eq_add_of_le' (Nat.le_of_add_left_le hfuel)
    obtain ⟨hchars, hlink⟩ := hcache _ (List.mem_append_right _ (List.mem_singleton_self _))
    have hrest := ih (fun node hnode => hcache node (List.mem_append_left _ hnode))
      (Nat.le_of_succ_le_succ hfuel)
    rw [Vfs.getPath, hlink, if_neg hparent, hrest, hchars, path_append]
    rfl

/-- What `Vfs.getPath` spells is what `vfs_update_pwd` stores. -/
theorem vfsUpdatePwd_refines {vfs_pwd : Pointer} (hchain : Chain m d nodes)
    (hcache : Mirrors cache m nodes) (hapart : ∀ node ∈ nodes, Apart (dirArray node.1) vfs_pwd)
    (hp : vfs_pwd.address ≠ 0) (hpwd : vfs_pwd.room = Vfs.VFS_PATH_LENGTH)
    (hfuel : nodes.length ≤ fuel) (hnames : Vfs.getPath cache fuel d = some names)
    (hfits : names.length < Vfs.VFS_PATH_LENGTH) :
    ∃ m', vfsUpdatePwd fuel d vfs_pwd m = some m' ∧ IsString (array m' vfs_pwd) names := by
  obtain rfl := Option.some.inj ((getPath_path hchain hcache hfuel).symm.trans hnames)
  obtain ⟨m', hm', hstring, -⟩ := vfsGetPath_eq hchain hapart hp (hpwd ▸ hfits) hfuel
  exact ⟨m', hm', hstring⟩

/-- `mstrtac` prepends a string to another one, and `vfs_get_path` stores the names from the root
down to a directory. -/
theorem path_stored :
    (∀ m a b s t, IsString (array m a) s → IsString (array m b) t →
      a.address ≠ 0 → b.address ≠ 0 → Apart a b → (s ++ t).length < b.room →
      ∃ m', mstrtac a b m = some m' ∧ Prepended a b s t m m') ∧
    ∀ m d nodes fullname fuel, Chain m d nodes →
      (∀ node ∈ nodes, Apart (dirArray node.1) fullname) → fullname.address ≠ 0 →
      (path nodes).length < fullname.room → nodes.length ≤ fuel →
      ∃ m', vfsGetPath fuel d fullname m = some m' ∧
        IsString (array m' fullname) (path nodes) ∧
        Within fullname ((path nodes).length + 1) m m' :=
  ⟨fun _ _ _ _ _ ha hb ha0 hb0 hapart hroom => mstrtac_eq ha hb ha0 hb0 hapart hroom,
    fun _ _ _ _ _ hchain hapart hp hroom hfuel => vfsGetPath_eq hchain hapart hp hroom hfuel⟩

/-- The directories `/` at 8 and `a/` at 200. -/
def smallTree : Mem := fun x =>
  if x = 8 then 0x2f else if x = 96 then 8
  else if x = 200 then 0x61 else if x = 201 then 0x2f else if x = 288 then 8 else 0

theorem smallTree_chain : Chain smallTree 200 [(8, [0x2f]), (200, [0x61, 0x2f])] := by
  have hroot : Chain smallTree 8 [(8, [0x2f])] :=
    .root (by decide) ⟨by decide, _, rfl⟩ (by decide)
  have hparent : dirParent smallTree 200 = 8 := by decide
  have hparents : Chain smallTree (dirParent smallTree 200) [(8, [0x2f])] := by
    rw [hparent]
    exact hroot
  have hname : IsString (array smallTree (dirName 200)) [0x61, 0x2f] := ⟨by decide, _, rfl⟩
  exact Chain.child (by decide) hname (by decide) hparents

theorem path_stored_small :
    (∃ m', mstrtac (dirName 8) (dirName 200) smallTree = some m' ∧
      Prepended (dirName 8) (dirName 200) [0x2f] [0x61, 0x2f] smallTree m') ∧
    ∃ m', vfsGetPath 2 200 ⟨400, 16⟩ smallTree = some m' ∧
      IsString (array m' ⟨400, 16⟩) [0x2f, 0x61, 0x2f] ∧ Within ⟨400, 16⟩ 4 smallTree m' :=
  ⟨path_stored.1 smallTree (dirName 8) (dirName 200) [0x2f] [0x61, 0x2f] ⟨by decide, _, rfl⟩
      ⟨by decide, _, rfl⟩ (by decide) (by decide) (Or.inl (by decide)) (by decide),
    path_stored.2 smallTree 200 [(8, [0x2f]), (200, [0x61, 0x2f])] ⟨400, 16⟩ 2 smallTree_chain
      (List.forall_mem_cons.2 ⟨Or.inl (by decide),
        List.forall_mem_cons.2 ⟨Or.inl (by decide), fun _ h => absurd h List.not_mem_nil⟩⟩)
      (by decide) (by decide) (by decide)⟩

end PathNames
