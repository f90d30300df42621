import Mathlib.Data.List.Sort

/-!
# Agendas

An `Agenda` is a list that is kept sorted by a key, the time of an event say.  `sortedInsert` puts an
entry behind those of the same key and `sortedRemove` takes the first one.  `due t l` are the entries
of `l` with a key of at most `t`, in their order, and `later t l` the others.

Working off an agenda rests on three facts: in a sorted list the first entry is due unless none is
(`due_cons`, `due_cons_of_lt`); an entry that comes later than `t` does not show in `due t`
(`due_sortedInsert`); and no entry is lost (`perm_sortedInsert`).
-/

structure Agenda {α κ : Type*} [LinearOrder κ] (key : α → κ) where
  entries : List α
  sorted : entries.Pairwise fun a b => key a ≤ key b

namespace Agenda

variable {α κ : Type*} [LinearOrder κ] {key : α → κ} {t : κ} {a : α} {l : List α}

/-! ### Insertion into a list -/

variable (key) in
/-- Insert before the first entry with a larger key. -/
def insertEntry (a : α) (l : List α) : List α :=
  l.orderedInsert (fun a b => key a < key b) a

theorem perm_insertEntry : (insertEntry key a l).Perm (a :: l) :=
  List.perm_orderedInsert _ a l

theorem pairwise_insertEntry (h : l.Pairwise fun a b => key a ≤ key b) :
    (insertEntry key a l).Pairwise fun a b => key a ≤ key b := by
  induction l with
  | nil => exact List.pairwise_singleton _ a
  | cons b l ih =>
    obtain ⟨hb, hl⟩ := List.pairwise_cons.1 h
    unfold insertEntry
    rw [List.orderedInsert_cons]
    split_ifs with hab
    · rw [List.pairwise_cons]
      refine ⟨?_, h⟩
      intro c hc
      rcases List.mem_cons.1 hc with rfl | hc
      · exact hab.le
      · exact hab.le.trans (hb c hc)
    · rw [List.pairwise_cons]
      refine ⟨?_, ih hl⟩
      intro c hc
      rcases List.mem_cons.1 (perm_insertEntry.mem_iff.1 hc) with rfl | hc
      · exact not_lt.1 hab
      · exact hb c hc

/-- The place of the entry: behind the entries of at most its key, in front of a larger one. -/
theorem insertEntry_append {l' : List α} (hl : ∀ b ∈ l, key b ≤ key a)
    (hl' : ∀ b ∈ l'.head?, key a < key b) : insertEntry key a (l ++ l') = l ++ a :: l' := by
  unfold insertEntry
  induction l with
  | nil =>
    cases l' with
    | nil => rfl
    | cons b l' => rw [List.nil_append, List.orderedInsert_cons, if_pos (hl' b rfl), List.nil_append]
  | cons b l ih =>
    have hb : ¬ key a < key b := not_lt.2 (hl b List.mem_cons_self)
    rw [List.cons_append, List.orderedInsert_cons, if_neg hb,
      ih fun c hc => hl c (List.mem_cons_of_mem b hc), List.cons_append]

/-! ### What is due -/

variable (key) in
def due (t : κ) (l : List α) : List α := l.filter fun a => key a ≤ t

theorem due_cons (h : key a ≤ t) : due key t (a :: l) = a :: due key t l :=
  List.filter_cons_of_pos (by simpa using h)

theorem due_cons_of_lt (hl : (a :: l).Pairwise fun a b => key a ≤ key b) (h : t < key a) :
    due key t (a :: l) = [] := by
  rw [due, List.filter_eq_nil_iff]
  intro b hb
  rw [decide_eq_true_eq, not_le]
  rcases List.mem_cons.1 hb with rfl | hb
  · exact h
  · exact h.trans_le ((List.pairwise_cons.1 hl).1 b hb)

/-- An entry for later does not change what is due. -/
theorem due_insertEntry (h : t < key a) : due key t (insertEntry key a l) = due key t l := by
  have hnot : ¬ key a ≤ t := not_le.2 h
  induction l with
  | nil => simp [insertEntry, due, hnot]
  | cons b l ih =>
    unfold insertEntry
    rw [List.orderedInsert_cons]
    split_ifs with hab
    · exact List.filter_cons_of_neg (by simpa using hnot)
    · by_cases hb : key b ≤ t
      · rw [due_cons hb, due_cons hb]
        exact congrArg _ ih
      · rw [due, List.filter_cons_of_neg (by simpa using hb), due,
          List.filter_cons_of_neg (by simpa using hb)]
        exact ih

def empty : Agenda key := ⟨[], .nil⟩

def sortedInsert (q : Agenda key) (a : α) : Agenda key :=
  ⟨insertEntry key a q.entries, pairwise_insertEntry q.sorted⟩

/-- The first entry and the others; `none` when there is none. -/
def sortedRemove (q : Agenda key) : Option (α × Agenda key) :=
  match q with
  | ⟨[], _⟩ => none
  | ⟨a :: l, h⟩ => some (a, ⟨l, h.of_cons⟩)

variable {q q' : Agenda key}

theorem perm_sortedInsert : (q.sortedInsert a).entries.Perm (a :: q.entries) :=
  perm_insertEntry

theorem due_sortedInsert (h : t < key a) :
    due key t (q.sortedInsert a).entries = due key t q.entries :=
  due_insertEntry h

theorem entries_of_sortedRemove_none (h : q.sortedRemove = none) : q.entries = [] := by
  obtain ⟨_ | ⟨a, l⟩, hl⟩ := q
  · rfl
  · cases h

theorem entries_of_sortedRemove_some (h : q.sortedRemove = some (a, q')) :
    q.entries = a :: q'.entries := by
  obtain ⟨_ | ⟨b, l⟩, hl⟩ := q
  · cases h
  · cases h
    rfl

end Agenda
