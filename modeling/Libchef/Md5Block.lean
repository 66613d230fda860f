import Libchef.Base.Words
import Libchef.Md5Model
import Libchef.Md5Standard

/-!
One block of a digest: the operations that `md5_process` writes out are the loop of the standard.

The source gives the local variables the places of the words in turn, the standard moves the
words. After `i` operations the two differ by a rotation of the names.
-/

namespace Libchef.Md5Block

open Libchef.StringsModel Libchef.Md5Model Libchef.Numeral Libchef.Blocks Libchef.Words

/-! ### The table of operations -/

/-- The names in their order at the first operation. -/
def names : Fin 4 → Reg
  | 0 => .a
  | 1 => .b
  | 2 => .c
  | 3 => .d

lemma names_injective : Function.Injective names := by
  have h : ∀ i j, names i = names j → i = j := by decide
  exact fun i j => h i j

/-- The operation `i`. -/
def row (i : ℕ) : Set :=
  ⟨turn names i 0, turn names i 1, turn names i 2, turn names i 3, Md5Standard.index i,
    Md5Standard.shift i, Md5Standard.T.getD i 0⟩

lemma round1_eq : round1 = (List.range' 0 16).map row := by decide

lemma round2_eq : round2 = (List.range' 16 16).map row := by decide

lemma round3_eq : round3 = (List.range' 32 16).map row := by decide

lemma round4_eq : round4 = (List.range' 48 16).map row := by decide

/-- The words of the standard after `i` operations. -/
def view (i : ℕ) (r : Regs) : Md5Standard.State :=
  ⟨r.get (turn names i 0), r.get (turn names i 1), r.get (turn names i 2), r.get (turn names i 3)⟩

lemma get_set (r : Regs) (w : Word) (n : Reg) : (r.set w n).get = Function.update r.get n w := by
  funext n'
  cases n <;> cases n' <;> rfl

lemma shift_lt (i : ℕ) (hi : i < 64) : Md5Standard.shift i < 32 := by
  have h : ∀ i < 64, Md5Standard.shift i < 32 := by decide
  exact h i hi

lemma index_lt (i : ℕ) : Md5Standard.index i < 16 := by
  unfold Md5Standard.index
  split_ifs <;> omega

section Operations

variable {X : ℕ → Word} {M : List Word} (hX : ∀ k < 16, X k = M.getD k 0)
include hX

lemma view_SET {i : ℕ} (hi : i < 64) (r : Regs) :
    view (i + 1) (SET (Md5Standard.function i) X r (row i)) =
      Md5Standard.operation M (view i r) i := by
  simp only [view, turn_succ, SET, row, Md5Standard.operation, get_set,
    update_turn names_injective, ROTATE_LEFT, rotateLeft_eq _ (shift_lt i hi), hX _ (index_lt i),
    Fin.reduceSub, Fin.reduceEq, if_true, if_false]
  rw [BitVec.add_comm]

lemma view_round {f : Word → Word → Word → Word} {i n : ℕ} (hn : i + n ≤ 64)
    (hf : ∀ j, i ≤ j → j < i + n → f = Md5Standard.function j) (r : Regs) :
    view (i + n) (((List.range' i n).map row).foldl (SET f X) r) =
      (List.range' i n).foldl (Md5Standard.operation M) (view i r) := by
  induction n with
  | zero => rfl
  | succ n ih =>
    have hlast := hf (i + n) (by omega) (by omega)
    rw [List.range'_concat, List.map_append, List.foldl_append, List.foldl_append, Nat.one_mul,
      List.map_singleton, List.foldl_cons, List.foldl_nil, List.foldl_cons, List.foldl_nil,
      ← ih (by omega) fun j hj hlt => hf j hj (by omega), ← Nat.add_assoc, hlast]
    exact view_SET hX (by omega) _

end Operations

/-! ### The block -/

lemma words_eq {block : Str} (hb : block.length = 64) :
    Md5Standard.words block = (List.range 16).map (wordAt block) := by
  rw [Md5Standard.words, blocks, hb, List.map_map]
  refine List.map_congr_left fun t ht => ?_
  have h4 : 4 * t + 4 ≤ block.length := by
    have := List.mem_range.mp ht
    omega
  rw [Function.comp, take_four 0 h4, ← add_bytes]
  rfl

/-- `abcd` under the names of the standard. -/
def stateOf (r : Regs) : Md5Standard.State := ⟨r.a, r.b, r.c, r.d⟩

/-- **One block**: the code's compression function is that of the standard. -/
theorem md5Process_eq {block : Str} (hb : block.length = 64) (abcd : Regs) :
    stateOf (md5Process abcd block) = Md5Standard.compress (stateOf abcd) block := by
  have hX : ∀ k < 16, wordAt block k = (Md5Standard.words block).getD k 0 := by
    intro k hk
    rw [words_eq hb]
    simp [hk]
  have h1 := view_round hX (i := 0) (n := 16) (f := F) (by omega)
    (fun j _ hj => (if_pos hj).symm) abcd
  generalize hr1 : round1.foldl (SET F (wordAt block)) abcd = r1
  have h2 := view_round hX (i := 16) (n := 16) (f := G) (by omega)
    (fun j hj hlt => by rw [Md5Standard.function, if_neg (by omega), if_pos hlt]; rfl) r1
  generalize hr2 : round2.foldl (SET G (wordAt block)) r1 = r2
  have h3 := view_round hX (i := 32) (n := 16) (f := H) (by omega)
    (fun j hj hlt => by
      rw [Md5Standard.function, if_neg (by omega), if_neg (by omega), if_pos hlt]; rfl) r2
  generalize hr3 : round3.foldl (SET H (wordAt block)) r2 = r3
  have h4 := view_round hX (i := 48) (n := 16) (f := I) (by omega)
    (fun j hj hlt => by
      rw [Md5Standard.function, if_neg (by omega), if_neg (by omega), if_neg (by omega)]; rfl) r3
  generalize hr4 : round4.foldl (SET I (wordAt block)) r3 = r4
  rw [← round1_eq, hr1] at h1
  rw [← round2_eq, hr2] at h2
  rw [← round3_eq, hr3] at h3
  rw [← round4_eq, hr4] at h4
  have hall : stateOf r4 =
      (List.range 64).foldl (Md5Standard.operation (Md5Standard.words block)) (stateOf abcd) := by
    have hcut : List.range 64 =
        List.range' 0 16 ++ (List.range' 16 16 ++ (List.range' 32 16 ++ List.range' 48 16)) := rfl
    rw [hcut, List.foldl_append, List.foldl_append, List.foldl_append]
    exact h4.trans (by rw [h3, h2, h1]; rfl)
  rw [Md5Standard.compress, ← hall]
  simp only [md5Process, hr1, hr2, hr3, hr4]
  rfl

end Libchef.Md5Block
