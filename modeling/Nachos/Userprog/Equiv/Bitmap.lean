import Mathlib.Data.List.Sort
import Nachos.Userprog.Bitmap

/-!
## Bitmaps as sets of bit numbers

`bit` is the set a bitmap stands for.  `clears` lists the clear bits in increasing order: `NumClear`
is its length, `Find` takes its head, and `n` calls of `Find` take its first `n` elements.
`FirstFind` takes the first run that fits.
-/

namespace Nachos.BitMap

/-! ### Single bits -/

theorem bit_eq (m : BitMap) (i : ℕ) :
    m.bit i = (m.map (i / BitsInWord)).getLsbD (i % BitsInWord) := by
  have hlt : i % 32 < 32 := Nat.mod_lt _ (by decide)
  have hne : BitVec.twoPow 32 (i % 32) ≠ 0#32 := by
    intro h
    have hb := congrArg (fun w : BitVec 32 => w.getLsbD (i % 32)) h
    simp [hlt] at hb
  unfold bit
  rw [← BitVec.twoPow_eq, BitVec.and_twoPow]
  cases hb : (m.map (i / BitsInWord)).getLsbD (i % BitsInWord)
  · simp
  · simpa using hne

@[simp]
theorem numBits_setBit (m : BitMap) (i : ℕ) : (m.setBit i).numBits = m.numBits := rfl

@[simp]
theorem numBits_clearBit (m : BitMap) (i : ℕ) : (m.clearBit i).numBits = m.numBits := rfl

theorem bit_setBit (m : BitMap) (i j : ℕ) : (m.setBit i).bit j = (decide (j = i) || m.bit j) := by
  have hi : i % 32 < 32 := Nat.mod_lt _ (by decide)
  rw [bit_eq, bit_eq]
  by_cases hw : j / BitsInWord = i / BitsInWord
  · have hiff : (i % 32 = j % 32) ↔ j = i := by
      simp only [BitsInWord] at hw
      omega
    simp only [setBit, hw, Function.update_self, BitVec.getLsbD_or, ← BitVec.twoPow_eq,
      BitVec.getLsbD_twoPow, hi, decide_true, Bool.true_and, hiff]
    rw [Bool.or_comm]
  · have hne : j ≠ i := fun h => hw (h ▸ rfl)
    simp [setBit, hw, hne]

theorem bit_clearBit (m : BitMap) (i j : ℕ) :
    (m.clearBit i).bit j = (decide (j ≠ i) && m.bit j) := by
  have hi : i % 32 < 32 := Nat.mod_lt _ (by decide)
  rw [bit_eq, bit_eq]
  by_cases hw : j / BitsInWord = i / BitsInWord
  · have hiff : (i % 32 = j % 32) ↔ j = i := by
      simp only [BitsInWord] at hw
      omega
    have hj : j % 32 < 32 := Nat.mod_lt _ (by decide)
    simp only [clearBit, hw, Function.update_self, BitVec.getLsbD_and, BitVec.getLsbD_not,
      ← BitVec.twoPow_eq, BitVec.getLsbD_twoPow, hi, hj, decide_true, Bool.true_and, hiff]
    rw [Bool.and_comm, decide_not]
  · have hne : j ≠ i := fun h => hw (h ▸ rfl)
    simp [clearBit, hw, hne]

theorem foldl_clearBit (m : BitMap) (l : List ℕ) :
    (l.foldl clearBit m).numBits = m.numBits ∧
      ∀ i, (l.foldl clearBit m).bit i = (decide (i ∉ l) && m.bit i) := by
  induction l generalizing m with
  | nil => simp
  | cons a l ih =>
    obtain ⟨hn, hb⟩ := ih (m.clearBit a)
    refine ⟨hn, fun i => ?_⟩
    rw [List.foldl_cons, hb, bit_clearBit]
    by_cases hi : i = a <;> simp [hi]

@[simp]
theorem numBits_new (garbage : ℕ → BitVec 32) (n : ℕ) : (new garbage n).numBits = n :=
  (foldl_clearBit _ _).1

theorem bit_new (garbage : ℕ → BitVec 32) {n i : ℕ} (hi : i < n) :
    (new garbage n).bit i = false := by
  rw [new, (foldl_clearBit _ _).2]
  simp [hi]

variable {i : ℕ} {m : BitMap} {n : ℕ} {starts : List ℕ}

theorem mark_natCast (m : BitMap) (hi : i < m.numBits) : m.mark i = some (m.setBit i) := by
  rw [mark, if_pos ⟨Int.natCast_nonneg i, Int.ofNat_lt.mpr hi⟩, Int.toNat_natCast]

theorem clear_natCast (m : BitMap) (hi : i < m.numBits) : m.clear i = some (m.clearBit i) := by
  rw [clear, if_pos ⟨Int.natCast_nonneg i, Int.ofNat_lt.mpr hi⟩, Int.toNat_natCast]

theorem test_natCast (m : BitMap) (hi : i < m.numBits) : m.test i = some (m.bit i) := by
  rw [test, if_pos ⟨Int.natCast_nonneg i, Int.ofNat_lt.mpr hi⟩, Int.toNat_natCast]

/-! ### The clear bits in order -/

/-- The clear bits in increasing order. -/
def clears (m : BitMap) : List ℕ := (List.range m.numBits).filter fun i => !m.bit i

theorem mem_clears : i ∈ m.clears ↔ i < m.numBits ∧ m.bit i = false := by
  simp [clears]

theorem clears_sorted (m : BitMap) : m.clears.Pairwise (· < ·) :=
  List.pairwise_lt_range.filter _

theorem clears_nodup (m : BitMap) : m.clears.Nodup := List.nodup_range.filter _

theorem numClear_eq (m : BitMap) : m.numClear = m.clears.length := by
  rw [numClear, clears, List.countP_eq_length_filter]

/-- A map with every bit clear. -/
def allClear (n : ℕ) : BitMap := ⟨n, fun _ => 0⟩

theorem bit_allClear (n i : ℕ) : (allClear n).bit i = false := by
  rw [bit_eq]
  exact BitVec.getLsbD_zero

theorem clears_allClear (n : ℕ) : (allClear n).clears = List.range n := by
  refine List.filter_eq_self.mpr fun i _ => ?_
  rw [bit_allClear]
  rfl

theorem clears_setBit_eq_filter (m : BitMap) (i : ℕ) :
    (m.setBit i).clears = m.clears.filter (· != i) := by
  rw [clears, clears, List.filter_filter]
  refine List.filter_congr fun j _ => ?_
  rw [bit_setBit]
  by_cases hj : j = i <;> simp [hj]

theorem numClear_setBit (hi : i < m.numBits) (hbit : m.bit i = false) :
    (m.setBit i).numClear + 1 = m.numClear := by
  have hmem : i ∈ m.clears := mem_clears.2 ⟨hi, hbit⟩
  rw [numClear_eq, numClear_eq, clears_setBit_eq_filter, ← m.clears_nodup.erase_eq_filter,
    List.length_erase_of_mem hmem]
  exact Nat.sub_add_cancel (List.length_pos_of_mem hmem)

theorem clears_setBit {l : List ℕ} (h : m.clears = i :: l) : (m.setBit i).clears = l := by
  have hnot : ∀ j ∈ l, j ≠ i := by
    intro j hj
    have hnodup := m.clears_nodup
    rw [h, List.nodup_cons] at hnodup
    exact fun hji => hnodup.1 (hji ▸ hj)
  rw [clears_setBit_eq_filter, h, List.filter_cons_of_neg (by simp), List.filter_eq_self]
  simpa using hnot

theorem find_of_clears {l : List ℕ} (h : m.clears = i :: l) : m.find = ((i : ℤ), m.setBit i) := by
  have hfind : (List.range m.numBits).find? (fun j => !m.bit j) = some i := by
    rw [← List.head?_filter]
    exact congrArg List.head? h
  rw [find, hfind]

theorem find_of_full (h : m.clears = []) : m.find = (-1, m) := by
  have hfind : (List.range m.numBits).find? (fun j => !m.bit j) = none := by
    rw [← List.head?_filter]
    exact congrArg List.head? h
  rw [find, hfind]

/-- `n` calls of `Find` return the first `n` clear bits and mark them. -/
theorem findMany_spec (h : n ≤ m.clears.length) :
    (findMany n m).1 = (m.clears.take n).map Int.ofNat ∧
      (findMany n m).2.numBits = m.numBits ∧ (findMany n m).2.clears = m.clears.drop n ∧
      ∀ i, (findMany n m).2.bit i = (decide (i ∈ m.clears.take n) || m.bit i) := by
  induction n generalizing m with
  | zero => simp [findMany]
  | succ n ih =>
    cases hc : m.clears with
    | nil => simp [hc] at h
    | cons a l =>
      have hf := find_of_clears hc
      have hl := clears_setBit hc
      obtain ⟨h1, h2, h3, h4⟩ := ih (m := m.setBit a) (by rw [hl]; simpa [hc] using h)
      rw [hl] at h1 h3 h4
      simp only [findMany, hf]
      refine ⟨by rw [h1]; rfl, h2, by rw [h3]; rfl, fun i => ?_⟩
      rw [h4, bit_setBit, List.take_succ_cons]
      by_cases hi : i = a <;> by_cases hi' : i ∈ l.take n <;> simp [hi, hi']

theorem length_findMany (n : ℕ) (m : BitMap) : (findMany n m).1.length = n := by
  induction n generalizing m with
  | zero => rfl
  | succ n ih => rw [findMany, List.length_cons, ih]

/-- A table longer than the clear bits ends with `-1`. -/
theorem findMany_short (h : m.clears.length < n) : (-1 : ℤ) ∈ (findMany n m).1 := by
  induction n generalizing m with
  | zero => omega
  | succ n ih =>
    rw [findMany]
    cases hc : m.clears with
    | nil =>
      rw [find_of_full hc]
      exact List.mem_cons_self
    | cons a l =>
      rw [find_of_clears hc]
      apply List.mem_cons_of_mem
      apply ih
      rw [clears_setBit hc]
      rw [hc, List.length_cons] at h
      omega

theorem clears_congr {m m' : BitMap} (hn : m.numBits = m'.numBits)
    (hb : ∀ s < m'.numBits, m.bit s = m'.bit s) : m.clears = m'.clears := by
  rw [clears, clears, hn]
  refine List.filter_congr fun s hs => ?_
  rw [hb s (List.mem_range.mp hs)]

theorem ext_bit {m m' : BitMap} (hn : m.numBits = m'.numBits) (h : ∀ i, m.bit i = m'.bit i) :
    m = m' := by
  obtain ⟨n, w⟩ := m
  obtain ⟨n', w'⟩ := m'
  obtain rfl : n = n' := hn
  congr 1
  funext k
  apply BitVec.eq_of_getLsbD_eq
  intro j hj
  have hjk := h (32 * k + j)
  rw [bit_eq, bit_eq] at hjk
  have hdiv : (32 * k + j) / 32 = k := by omega
  have hmod : (32 * k + j) % 32 = j := by omega
  simp only [BitsInWord, hdiv, hmod] at hjk
  exact hjk

/-! ### Runs of clear bits -/

/-- The `n` bits from `i` on lie in the bitmap and are clear. -/
def ClearRun (m : BitMap) (i n : ℕ) : Prop := i + n ≤ m.numBits ∧ ∀ j < n, m.bit (i + j) = false

/-- A run that starts at the end is empty, and then there is one at `0`. -/
theorem ClearRun.exists_lt {i n : ℕ} (h : m.ClearRun i n) (hpos : 0 < m.numBits) :
    ∃ j < m.numBits, m.ClearRun j n := by
  by_cases hi : i < m.numBits
  · exact ⟨i, hi, h⟩
  · have hle := h.1
    exact ⟨0, hpos, by omega, fun j hj => by omega⟩

theorem ClearRun.le_length_clears {i n : ℕ} (h : m.ClearRun i n) : n ≤ m.clears.length := by
  have hsub : ((List.range n).map (i + ·)).Subperm m.clears := by
    refine List.subperm_of_subset (List.nodup_range.map (add_right_injective i)) fun s hs => ?_
    obtain ⟨j, hj, rfl⟩ := List.mem_map.1 hs
    rw [List.mem_range] at hj
    exact mem_clears.2 ⟨by have := h.1; omega, h.2 j hj⟩
  simpa using hsub.length_le

/-- Few bits that are set leave a long run between them. -/
theorem exists_clearRun {l : List ℕ} (hl : ∀ s < m.numBits, m.bit s = true → s ∈ l)
    (hlen : (l.length + 1) * n ≤ m.numBits) : ∃ i, m.ClearRun i n := by
  by_contra hnone
  -- every block of `n` bits has a bit that is set
  have hset : ∀ k < l.length + 1, ∃ s ∈ l, s / n = k := by
    intro k hk
    have hle : k * n + n ≤ m.numBits :=
      (Nat.succ_mul k n).symm.trans_le ((Nat.mul_le_mul_right n hk).trans hlen)
    obtain ⟨j, hj, hbit⟩ : ∃ j < n, m.bit (k * n + j) = true := by
      by_contra hclear
      refine hnone ⟨k * n, hle, fun j hj => ?_⟩
      rw [← Bool.not_eq_true]
      exact fun hbit => hclear ⟨j, hj, hbit⟩
    refine ⟨k * n + j, hl _ (by omega) hbit, ?_⟩
    rw [Nat.mul_comm, Nat.mul_add_div (by omega), Nat.div_eq_of_lt hj, Nat.add_zero]
  have hsub : (List.range (l.length + 1)).Subperm (l.map (· / n)) := by
    refine List.subperm_of_subset List.nodup_range fun k hk => List.mem_map.2 ?_
    exact hset k (List.mem_range.1 hk)
  have hle := hsub.length_le
  rw [List.length_range, List.length_map] at hle
  omega

theorem runFlag_of_le {i n : ℕ} (h : i + n ≤ m.numBits) :
    m.runFlag i n = some (decide (∀ j < n, m.bit (i + j) = false)) := by
  induction n with
  | zero => simp [runFlag]
  | succ n ih =>
    rw [runFlag, ih (by omega), m.test_natCast (by omega)]
    simp only [Option.bind_eq_bind, Option.bind_some, Option.pure_def, Option.some.injEq]
    rw [Bool.eq_iff_iff]
    simp only [Bool.and_eq_true, decide_eq_true_eq, Bool.not_eq_true']
    constructor
    · rintro ⟨hlt, hn⟩ j hj
      rcases Nat.lt_succ_iff_lt_or_eq.mp hj with hj | rfl
      · exact hlt j hj
      · exact hn
    · exact fun hall => ⟨fun j hj => hall j (by omega), hall n (by omega)⟩

/-- The test of a bit past the end fails its `ASSERT`. -/
theorem runFlag_of_gt {i n : ℕ} (h : m.numBits < i + n) (hi : i < m.numBits) :
    m.runFlag i n = none := by
  induction n with
  | zero => omega
  | succ n ih =>
    rw [runFlag]
    by_cases hn : m.numBits < i + n
    · rw [ih hn]
      rfl
    · have htest : m.test (i + n : ℕ) = none :=
        if_neg fun hr => absurd (Int.ofNat_lt.mp hr.2) (by omega)
      rw [runFlag_of_le (by omega), htest]
      rfl

theorem markRun_of_le {i n : ℕ} (h : i + n ≤ m.numBits) :
    ∃ m', m.markRun i n = some m' ∧ m'.numBits = m.numBits ∧
      ∀ k, m'.bit k = (decide (i ≤ k ∧ k < i + n) || m.bit k) := by
  induction n with
  | zero =>
    refine ⟨m, rfl, rfl, fun k => ?_⟩
    simp
  | succ n ih =>
    obtain ⟨m₁, h1, h2, h3⟩ := ih (by omega)
    refine ⟨m₁.setBit (i + n), ?_, h2, fun k => ?_⟩
    · rw [markRun, h1]
      exact m₁.mark_natCast (by omega)
    · rw [bit_setBit, h3, ← Bool.or_assoc]
      congr 1
      rw [Bool.eq_iff_iff]
      simp only [Bool.or_eq_true, decide_eq_true_eq]
      omega

theorem firstFindFrom_cons_of_clear {m m₁ : BitMap} {n i : ℕ} (h : m.ClearRun i n)
    (hm : m.markRun i n = some m₁) : m.firstFindFrom n (i :: starts) = some ((i : ℤ), m₁) := by
  rw [firstFindFrom, runFlag_of_le h.1, decide_eq_true h.2, hm]
  rfl

theorem firstFindFrom_cons_of_not_clear {n i : ℕ} (hle : i + n ≤ m.numBits) (h : ¬ m.ClearRun i n) :
    m.firstFindFrom n (i :: starts) = m.firstFindFrom n starts := by
  have hnot : ¬ ∀ j < n, m.bit (i + j) = false := fun hall => h ⟨hle, hall⟩
  rw [firstFindFrom, runFlag_of_le hle, decide_eq_false hnot]
  rfl

/-- What the outer loop of `FirstFind` returns: the first start of a run, with the run marked, or
`-1`. -/
theorem firstFindFrom_spec {m m' : BitMap} {r : ℤ} (hstarts : ∀ i ∈ starts, i < m.numBits)
    (h : m.firstFindFrom n starts = some (r, m')) :
    (r = -1 ∧ m' = m ∧ ∀ i ∈ starts, ¬ m.ClearRun i n) ∨
    ∃ before i after, starts = before ++ i :: after ∧ (∀ j ∈ before, ¬ m.ClearRun j n) ∧
      m.ClearRun i n ∧ r = i ∧ m'.numBits = m.numBits ∧
      ∀ k, m'.bit k = (decide (i ≤ k ∧ k < i + n) || m.bit k) := by
  induction starts with
  | nil =>
    obtain ⟨rfl, rfl⟩ := Prod.mk.inj (Option.some.inj h)
    exact Or.inl ⟨rfl, rfl, nofun⟩
  | cons i starts ih =>
    have hi := hstarts i List.mem_cons_self
    by_cases hle : i + n ≤ m.numBits
    · by_cases hrun : m.ClearRun i n
      · obtain ⟨m₁, h1, h2, h3⟩ := markRun_of_le hle
        rw [firstFindFrom_cons_of_clear hrun h1] at h
        obtain ⟨rfl, rfl⟩ := Prod.mk.inj (Option.some.inj h)
        exact Or.inr ⟨[], i, starts, rfl, nofun, hrun, rfl, h2, h3⟩
      · rw [firstFindFrom_cons_of_not_clear hle hrun] at h
        rcases ih (fun j hj => hstarts j (List.mem_cons_of_mem i hj)) h with
          ⟨hr, hm, hnone⟩ | ⟨before, j, after, rfl, hb, hj⟩
        · exact Or.inl ⟨hr, hm, List.forall_mem_cons.mpr ⟨hrun, hnone⟩⟩
        · exact Or.inr ⟨i :: before, j, after, rfl, List.forall_mem_cons.mpr ⟨hrun, hb⟩, hj⟩
    · rw [firstFindFrom, runFlag_of_gt (by omega) hi] at h
      cases h

/-- The result of `FirstFind`, when it returns at all. -/
theorem firstFind_spec {m m' : BitMap} {size r : ℤ} (h : m.firstFind size = some (r, m')) :
    (r = -1 ∧ m' = m ∧ ∀ i < m.numBits, ¬ m.ClearRun i size.toNat) ∨
    ∃ i : ℕ, r = i ∧ m.ClearRun i size.toNat ∧ m'.numBits = m.numBits ∧
      ∀ k, m'.bit k = (decide (i ≤ k ∧ k < i + size.toNat) || m.bit k) := by
  rcases firstFindFrom_spec (fun i hi => List.mem_range.mp hi) h with
    ⟨hr, hm, hnone⟩ | ⟨_, i, _, _, _, hrun, hr, hbits⟩
  · exact Or.inl ⟨hr, hm, fun i hi => hnone i (List.mem_range.mpr hi)⟩
  · exact Or.inr ⟨i, hr, hrun, hbits⟩

/-- `FirstFind` returns when there is a run. -/
theorem firstFindFrom_of_clearRun {n i : ℕ} {before after : List ℕ} (hi : m.ClearRun i n)
    (hbefore : ∀ j ∈ before, j + n ≤ m.numBits) :
    ∃ r, m.firstFindFrom n (before ++ i :: after) = some r := by
  induction before with
  | nil =>
    obtain ⟨m₁, h1, -⟩ := markRun_of_le hi.1
    exact ⟨_, firstFindFrom_cons_of_clear hi h1⟩
  | cons j before ih =>
    have hj := hbefore j List.mem_cons_self
    by_cases hrun : m.ClearRun j n
    · obtain ⟨m₁, h1, -⟩ := markRun_of_le hj
      exact ⟨_, firstFindFrom_cons_of_clear hrun h1⟩
    · obtain ⟨r, hr⟩ := ih fun k hk => hbefore k (List.mem_cons_of_mem j hk)
      exact ⟨r, (firstFindFrom_cons_of_not_clear hj hrun).trans hr⟩

theorem exists_firstFind {size : ℤ} (hi : i < m.numBits) (h : m.ClearRun i size.toNat) :
    ∃ r, m.firstFind size = some r := by
  obtain ⟨before, after, hsplit⟩ := List.append_of_mem (List.mem_range.mpr hi)
  have hsorted := List.pairwise_lt_range (n := m.numBits)
  rw [hsplit, List.pairwise_append] at hsorted
  rw [firstFind, hsplit]
  refine firstFindFrom_of_clearRun h fun j hj => ?_
  have hji : j < i := hsorted.2.2 j hj i List.mem_cons_self
  have hle := h.1
  omega

/-- With no run among the starts, `FirstFind` returns only if no test goes past the end. -/
theorem firstFindFrom_le {r : ℤ × BitMap} (hstarts : ∀ i ∈ starts, i < m.numBits ∧ ¬ m.ClearRun i n)
    (h : m.firstFindFrom n starts = some r) : ∀ i ∈ starts, i + n ≤ m.numBits := by
  induction starts with
  | nil => exact nofun
  | cons i starts ih =>
    rw [List.forall_mem_cons] at hstarts ⊢
    by_cases hle : i + n ≤ m.numBits
    · rw [firstFindFrom_cons_of_not_clear hle hstarts.1.2] at h
      exact ⟨hle, ih hstarts.2 h⟩
    · rw [firstFindFrom, runFlag_of_gt (by omega) hstarts.1.1] at h
      cases h

/-- Without a run the window of two or more bits slides past the end, and a test fails its
`ASSERT`. -/
theorem firstFind_eq_none (hpos : 0 < m.numBits) (hn : n ≠ 1) (h : ∀ i < m.numBits, ¬ m.ClearRun i n) :
    m.firstFind n = none := by
  cases hff : m.firstFind n with
  | none => rfl
  | some r =>
    have hn0 : n ≠ 0 := by
      rintro rfl
      exact h 0 hpos ⟨by omega, nofun⟩
    have hlast : m.numBits - 1 ∈ List.range m.numBits := List.mem_range.mpr (by omega)
    have hle := firstFindFrom_le (fun i hi => ⟨List.mem_range.mp hi, h i (List.mem_range.mp hi)⟩)
      hff (m.numBits - 1) hlast
    omega

/-- The search returns when the window stays inside the map. -/
theorem exists_firstFindFrom (hstarts : ∀ i ∈ starts, i + n ≤ m.numBits) :
    ∃ r, m.firstFindFrom n starts = some r := by
  induction starts with
  | nil => exact ⟨_, rfl⟩
  | cons i starts ih =>
    rw [List.forall_mem_cons] at hstarts
    by_cases hrun : m.ClearRun i n
    · obtain ⟨m₁, h1, -⟩ := markRun_of_le hrun.1
      exact ⟨_, firstFindFrom_cons_of_clear hrun h1⟩
    · rw [firstFindFrom_cons_of_not_clear hstarts.1 hrun]
      exact ih hstarts.2

/-- `FirstFind(n)` has returned `r`: the least start of a run of `n` clear bits, which are now marked,
or `-1` when there is no run. -/
def FoundLeast (m : BitMap) (n : ℕ) (r : ℤ × BitMap) : Prop :=
  r.2.numBits = m.numBits ∧
    ((∃ i : ℕ, r.1 = i ∧ m.ClearRun i n ∧ (∀ j < i, ¬ m.ClearRun j n) ∧
        ∀ k, r.2.bit k = (decide (i ≤ k ∧ k < i + n) || m.bit k)) ∨
      r.1 = -1 ∧ (∀ i, ¬ m.ClearRun i n) ∧ r.2 = m)

/-- What `FirstFind` returns is right, but for the empty run in an empty map. -/
theorem foundLeast_of_firstFind {r : ℤ × BitMap} (h : m.firstFind n = some r)
    (hempty : m.numBits = 0 → n ≠ 0) : m.FoundLeast n r := by
  obtain ⟨r, m'⟩ := r
  rw [firstFind, Int.toNat_natCast] at h
  rcases firstFindFrom_spec (fun i hi => List.mem_range.mp hi) h with
    ⟨hr, hm, hnone⟩ | ⟨before, i, after, hsplit, hbefore, hrun, hr, hbits, hbit⟩
  · refine ⟨congrArg numBits hm, Or.inr ⟨hr, ?_, hm⟩⟩
    intro i hi
    by_cases hpos : 0 < m.numBits
    · obtain ⟨j, hj, hrun⟩ := hi.exists_lt hpos
      exact hnone j (List.mem_range.mpr hj) hrun
    · have hle := hi.1
      exact hempty (by omega) (by omega)
  · refine ⟨hbits, Or.inl ⟨i, hr, hrun, ?_, hbit⟩⟩
    intro j hj hjrun
    have hi : i < m.numBits := List.mem_range.mp (by rw [hsplit]; simp)
    have hsorted := List.pairwise_lt_range (n := m.numBits)
    have hmem : j ∈ List.range m.numBits := List.mem_range.mpr (by omega)
    rw [hsplit, List.pairwise_append, List.pairwise_cons] at hsorted
    rw [hsplit, List.mem_append, List.mem_cons] at hmem
    rcases hmem with hmem | rfl | hmem
    · exact hbefore j hmem hjrun
    · omega
    · have := hsorted.2.1.1 j hmem
      omega

/-- **The contiguous search**: `FirstFind` returns, and what it should, exactly when there is a run,
or the window is one bit wide, or there is nothing to search and something to find. -/
theorem firstFind_least_iff (m : BitMap) (n : ℕ) :
    (∃ r, m.firstFind n = some r ∧ m.FoundLeast n r) ↔
      (∃ i < m.numBits, m.ClearRun i n) ∨ n = 1 ∨ m.numBits = 0 ∧ n ≠ 0 := by
  constructor
  · rintro ⟨r, hr, -, hfound⟩
    by_contra hnot
    push Not at hnot
    obtain ⟨hnone, hone, hempty⟩ := hnot
    by_cases hpos : 0 < m.numBits
    · rw [firstFind_eq_none hpos hone hnone] at hr
      cases hr
    · have hn : n = 0 := hempty (by omega)
      have hzero : m.numBits = 0 := by omega
      have hr' : r = (-1, m) := by
        rw [firstFind, hzero] at hr
        exact (Option.some.inj hr).symm
      subst hr'
      rcases hfound with ⟨i, hi, -⟩ | ⟨-, hno, -⟩
      · cases hi
      · exact hno 0 ⟨by omega, fun j hj => absurd hj (by omega)⟩
  · rintro (⟨i, hi, hrun⟩ | rfl | ⟨hzero, hn⟩)
    · have hex : ∃ r, m.firstFind n = some r := exists_firstFind hi hrun
      obtain ⟨r, hr⟩ := hex
      exact ⟨r, hr, foundLeast_of_firstFind hr fun h => by omega⟩
    · -- a window of one bit does not reach past the end
      have hwindow : ∀ i ∈ List.range m.numBits, i + 1 ≤ m.numBits :=
        fun i hi => List.mem_range.mp hi
      obtain ⟨r, hr⟩ := exists_firstFindFrom hwindow
      exact ⟨r, hr, foundLeast_of_firstFind hr fun _ => one_ne_zero⟩
    · have hr : m.firstFind n = some (-1, m) := by
        rw [firstFind, hzero]
        rfl
      exact ⟨_, hr, foundLeast_of_firstFind hr fun _ => hn⟩

/-- Two bits, the first one marked: there is no run of two, and the search for one does not return. -/
theorem fragmented_search_fails : (∀ i, ¬ (⟨2, fun _ => 1⟩ : BitMap).ClearRun i 2) ∧
    (⟨2, fun _ => 1⟩ : BitMap).firstFind (2 : ℕ) = none := by
  refine ⟨?_, by decide⟩
  rintro i ⟨hle, hclear⟩
  have hi : i = 0 := by
    simp only at hle
    omega
  subst hi
  exact absurd (hclear 0 (by decide)) (by decide)

end Nachos.BitMap
