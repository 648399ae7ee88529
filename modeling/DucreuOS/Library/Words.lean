import Mathlib

/-! # Words between separators

The words of a list are its maximal runs of elements that are no separators. They are taken off
the front one by one. -/
namespace Words

variable {α : Type*} (p : α → Bool)

def words (s : List α) : List (List α) := (s.splitOnP p).filter (!·.isEmpty)

/-- The run at the front, which is empty in front of a separator. -/
def front (s : List α) : List α := s.takeWhile (!p ·)

def behind (s : List α) : List α := s.dropWhile (!p ·)

variable {p} {c : α} {s t : List α}

@[simp] theorem words_nil : words p [] = [] := rfl
@[simp] theorem front_nil : front p [] = [] := rfl
@[simp] theorem behind_nil : behind p [] = [] := rfl

theorem front_separator (h : p c = true) : front p (c :: s) = [] := by
  rw [front, List.takeWhile_cons_of_neg (by simp [h])]

theorem front_letter (h : p c = false) : front p (c :: s) = c :: front p s := by
  rw [front, List.takeWhile_cons_of_pos (by simp [h]), front]

theorem behind_separator (h : p c = true) : behind p (c :: s) = c :: s := by
  rw [behind, List.dropWhile_cons_of_neg (by simp [h])]

theorem behind_letter (h : p c = false) : behind p (c :: s) = behind p s := by
  rw [behind, List.dropWhile_cons_of_pos (by simp [h]), behind]

theorem front_append_behind (p : α → Bool) (s : List α) : front p s ++ behind p s = s :=
  List.takeWhile_append_dropWhile

theorem front_subset : front p s ⊆ s := List.takeWhile_subset _

theorem front_congr {q : α → Bool} (h : ∀ c ∈ s, p c = q c) : front p s = front q s := by
  induction s with
  | nil => rfl
  | cons c s ih =>
    rw [List.forall_mem_cons] at h
    cases hc : p c with
    | true => rw [front_separator hc, front_separator (h.1 ▸ hc)]
    | false => rw [front_letter hc, front_letter (h.1 ▸ hc), ih h.2]

theorem length_front : (front p s).length = s.length ↔ ∀ c ∈ s, p c = false := by
  have hself : (front p s).length = s.length ↔ front p s = s :=
    ⟨(List.takeWhile_prefix _).eq_of_length, congrArg List.length⟩
  rw [hself, front, List.takeWhile_eq_self_iff]
  simp only [Bool.not_eq_true']

theorem not_separator (h : c ∈ front p s) : p c = false := by
  have hc := List.mem_takeWhile_imp h
  simpa using hc

/-- What is behind the front begins with a separator. -/
theorem head_behind (h : behind p s = c :: t) : p c = true := by
  have hhead := List.head?_dropWhile_not (!p ·) s
  rw [show s.dropWhile (!p ·) = c :: t from h] at hhead
  simpa using hhead

theorem words_separator (h : p c = true) : words p (c :: s) = words p s := by
  rw [words, List.splitOnP_cons_eq_if_modifyHead, if_pos h, List.filter_cons_of_neg (by simp), words]

/-- A list that begins with a letter begins with a word. -/
theorem words_letter (h : p c = false) :
    words p (c :: s) = (c :: front p s) :: words p (behind p s) := by
  have hword : ∀ x ∈ c :: front p s, p x = false := by
    intro x hx
    rcases List.mem_cons.1 hx with rfl | hx
    · exact h
    · exact not_separator hx
  have hsplit : c :: s = (c :: front p s) ++ behind p s := by
    rw [List.cons_append, front_append_behind]
  cases hrest : behind p s with
  | nil =>
    rw [hsplit, hrest, List.append_nil, words, List.splitOnP_eq_singleton hword]
    rfl
  | cons d t =>
    have hd : p d = true := head_behind hrest
    rw [hsplit, hrest, words, List.splitOnP_append_cons_of_forall_mem hword d hd,
      List.filter_cons_of_pos (by simp), words_separator hd, words]

/-- The first word has no separator. -/
theorem first_word {w : List α} {ws : List (List α)} (h : words p s = w :: ws) :
    w ≠ [] ∧ ∀ c ∈ w, p c = false := by
  induction s with
  | nil => cases h
  | cons c s ih =>
    cases hc : p c with
    | true => exact ih ((words_separator hc).symm.trans h)
    | false =>
      rw [words_letter hc] at h
      obtain ⟨rfl, -⟩ := List.cons.inj h
      refine ⟨List.cons_ne_nil _ _, ?_⟩
      rw [List.forall_mem_cons]
      exact ⟨hc, fun d hd => not_separator hd⟩

/-- The first word is the run at the front exactly when no separator stands there. -/
theorem first_word_iff {w : List α} {ws : List (List α)} (h : words p s = w :: ws) :
    w = front p s ↔ ∀ c ∈ s.head?, p c = false := by
  cases s with
  | nil => cases h
  | cons c t =>
    cases hc : p c with
    | false =>
      rw [words_letter hc] at h
      simp [front_letter hc, hc, (List.cons.inj h).1]
    | true => simp [front_separator hc, hc, (first_word h).1]

end Words
