import Mathlib.Data.Nat.Notation
import Mathlib.Logic.Function.Basic

/-!
# Writing blocks one after the other

`writeBlocks loc b j n d` is the store `d` after the blocks `b j, …, b (j + n - 1)` have been written
to the addresses `loc j, …, loc (j + n - 1)`, in that order.  When the addresses are distinct each of
them holds its block, and every other address keeps what it held.
-/

namespace Storage

variable {ι β : Type} [DecidableEq ι]

def writeBlocks (loc : ℕ → ι) (b : ℕ → β) : ℕ → ℕ → (ι → β) → ι → β
  | _, 0, d => d
  | j, n + 1, d => writeBlocks loc b (j + 1) n (Function.update d (loc j) (b j))

variable {loc : ℕ → ι} {b : ℕ → β} {j n : ℕ} {d : ι → β}

theorem writeBlocks_of_notMem {a : ι} (h : ∀ i, j ≤ i → i < j + n → loc i ≠ a) :
    writeBlocks loc b j n d a = d a := by
  induction n generalizing j d with
  | zero => rfl
  | succ n ih =>
    rw [writeBlocks, ih fun i h1 h2 => h i (by omega) (by omega),
      Function.update_of_ne (h j (Nat.le_refl j) (by omega)).symm]

theorem writeBlocks_of_mem {i : ℕ} (h1 : j ≤ i) (h2 : i < j + n)
    (hinj : ∀ i', j ≤ i' → i' < j + n → loc i' = loc i → i' = i) :
    writeBlocks loc b j n d (loc i) = b i := by
  induction n generalizing j d with
  | zero => omega
  | succ n ih =>
    rw [writeBlocks]
    rcases Nat.eq_or_lt_of_le h1 with rfl | hlt
    · -- the later writes go elsewhere
      rw [writeBlocks_of_notMem, Function.update_self]
      intro i' h3 h4 heq
      have := hinj i' (by omega) (by omega) heq
      omega
    · exact ih hlt (by omega) fun i' h3 h4 => hinj i' (by omega) (by omega)

end Storage
