/-
# Arrays as functions

An array of bytes whose size is known from elsewhere is the function from
indices to bytes. `overlay` copies bytes into it; a 32-bit word is four of its
bytes, low byte first, and words that were laid out one after the other are read
back (`word_ofWords`).
-/
import NachosNet.Basis.Bytes

namespace Basis

variable {α : Type*}

/-- The array `f` with `n` elements of `g` copied to `off`. -/
def overlay (f : ℕ → α) (off n : ℕ) (g : ℕ → α) (x : ℕ) : α := if off ≤ x ∧ x < off + n then g (x - off) else f x

theorem overlay_of_mem {f g : ℕ → α} {off n x : ℕ} (h : off ≤ x) (h' : x < off + n) :
    overlay f off n g x = g (x - off) := if_pos ⟨h, h'⟩

theorem overlay_of_notMem {f g : ℕ → α} {off n x : ℕ} (h : x < off ∨ off + n ≤ x) : overlay f off n g x = f x :=
  if_neg (by omega)

/-- The word at an offset. -/
def word (f : ℕ → Byte) (off : ℕ) : BitVec 32 := f (off + 3) ++ f (off + 2) ++ f (off + 1) ++ f off

/-- The bytes of words. -/
def ofWords (ws : List (BitVec 32)) (x : ℕ) : Byte := (ws.getD (x / 4) 0).extractLsb' (8 * (x % 4)) 8

theorem word_congr {f g : ℕ → Byte} {off off' : ℕ} (h : ∀ k < 4, f (off + k) = g (off' + k)) :
    word f off = word g off' := by
  have h0 := h 0 (by decide)
  rw [Nat.add_zero, Nat.add_zero] at h0
  unfold word
  rw [h 3 (by decide), h 2 (by decide), h 1 (by decide), h0]

theorem word_ofWords (ws : List (BitVec 32)) (i : ℕ) : word (ofWords ws) (4 * i) = ws.getD i 0 := by
  have hbyte : ∀ k < 4, ofWords ws (4 * i + k) = (ws.getD i 0).extractLsb' (8 * k) 8 := by
    intro k hk
    unfold ofWords
    rw [show (4 * i + k) / 4 = i by omega, show (4 * i + k) % 4 = k by omega]
  unfold word
  have h0 := hbyte 0 (by decide)
  rw [Nat.add_zero] at h0
  rw [hbyte 3 (by decide), hbyte 2 (by decide), hbyte 1 (by decide), h0]
  exact extractLsb'_bytes _

/-- The first `n` words. -/
def words (f : ℕ → Byte) (n : ℕ) : List (BitVec 32) := (List.range n).map fun i => word f (4 * i)

theorem length_words (f : ℕ → Byte) (n : ℕ) : (words f n).length = n := by simp [words]

theorem words_congr {f g : ℕ → Byte} {n : ℕ} (h : ∀ x < 4 * n, f x = g x) : words f n = words g n := by
  refine List.map_congr_left fun i hi => word_congr fun k hk => h _ ?_
  have := List.mem_range.mp hi
  omega

theorem words_ofWords {ws : List (BitVec 32)} {n : ℕ} (h : ws.length = n) : words (ofWords ws) n = ws := by
  apply List.ext_getElem
  · rw [length_words, h]
  · intro i hi hi'
    simp [words, word_ofWords, hi']

end Basis
