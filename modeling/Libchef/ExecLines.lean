import Libchef.ExecModel

/-!
The lines that `run_command` stores.

The loop stores the pieces that `fgets` reads, without their ends. These are the lines of the
output if each line goes into the buffer, and if there is no NUL in it: at the first NUL of a piece
the loop takes it to be over.
-/

namespace Libchef.ExecLines

open Libchef.Lines Libchef.StringsModel Libchef.ExecModel

variable {line stream chunk : Str} {out : List Str}

lemma cStr_terminated (h : 0 ∉ chunk) (line : Str) : cStr (chunk ++ 0 :: line) = chunk := by
  rw [cStr_append h, cStr, List.takeWhile_cons_of_neg (by simp), List.append_nil]

lemma notMem_cStr (s : Str) : 0 ∉ cStr s := by
  intro h
  have := List.mem_takeWhile_imp h
  simp at this

/-- The last character of what was read is looked at. -/
lemma cutNewline_chunk (h0 : 0 ∉ chunk) (hne : chunk ≠ []) (hlen : chunk.length < maxLen)
    (rest : Str) : ∃ line, cutNewline (chunk ++ 0 :: rest) = some line ∧
      cStr line = body lf chunk := by
  have hpos := List.length_pos_iff.mpr hne
  have hrend : (chunk.length + 2 ^ 64 - 1) % 2 ^ 64 = chunk.length - 1 := by
    unfold maxLen at hlen
    omega
  have hget : (chunk ++ 0 :: rest)[chunk.length - 1]? = some (chunk.getLast hne) := by
    rw [List.getElem?_append_left (by omega), ← List.getLast?_eq_getElem?,
      List.getLast?_eq_some_getLast hne]
  unfold cutNewline body
  simp only [cStr_terminated h0, hrend, hget, Option.map_some, List.getLast?_eq_some_getLast hne,
    Option.some.injEq]
  refine ⟨_, rfl, ?_⟩
  split_ifs with hlf
  · -- the end becomes a second NUL
    have hset : (chunk ++ 0 :: rest).set (chunk.length - 1) 0 =
        chunk.dropLast ++ 0 :: 0 :: rest := by
      conv_lhs => rw [← List.dropLast_concat_getLast hne, List.append_assoc]
      rw [List.set_append_right _ _ (by simp)]
      simp
    rw [hset]
    exact cStr_terminated (fun h => h0 (List.mem_of_mem_dropLast h)) _
  · exact cStr_terminated h0 _

lemma readLoop_cons (hs : stream ≠ []) (line : Str) (out : Option (List Str)) :
    readLoop line stream out =
      (cutNewline (takeLine lf (maxLen - 1) stream ++
          0 :: line.drop ((takeLine lf (maxLen - 1) stream).length + 1))).bind fun line =>
        readLoop line (stream.drop (takeLine lf (maxLen - 1) stream).length)
          (out.map (· ++ [cStr line])) := by
  have hf : fgets line stream = some (_, _) := if_neg hs
  rw [readLoop]
  split
  · next h => rw [hf] at h; cases h
  · next line' rest h =>
    rw [hf] at h
    cases h
    split
    · next hcut => rw [hcut]; rfl
    · next hcut => rw [hcut]; rfl

lemma rest_length (hs : stream ≠ []) :
    (stream.drop (takeLine lf (maxLen - 1) stream).length).length < stream.length :=
  fgets_length (if_neg hs : fgets [] stream = some (_, _))

lemma readLoop_nil (line : Str) (out : Option (List Str)) : readLoop line [] out = some out := by
  rw [readLoop]
  rfl

lemma readLoop_chunks (h0 : 0 ∉ stream) (line : Str) (out : List Str) :
    readLoop line stream (some out) =
      some (some (out ++ (chunks lf 16382 stream).map (body lf))) := by
  induction hlen : stream.length using Nat.strong_induction_on generalizing stream line out with
  | h m ih =>
    rcases eq_or_ne stream [] with rfl | hs
    · rw [readLoop_nil, chunks]
      simp
    · have hne : takeLine lf (maxLen - 1) stream ≠ [] := takeLine_ne_nil lf 16382 hs
      have hle : (takeLine lf (maxLen - 1) stream).length ≤ maxLen - 1 := takeLine_length_le lf _ _
      obtain ⟨line', hcut, hbody⟩ := cutNewline_chunk
        (fun h => h0 ((takeLine_isPrefix lf (maxLen - 1) stream).subset h)) hne
        (by unfold maxLen at hle ⊢; omega)
        (line.drop ((takeLine lf (maxLen - 1) stream).length + 1))
      rw [readLoop_cons hs, hcut, Option.bind_some, Option.map_some, chunks, dif_neg hs, hbody,
        ih _ (hlen ▸ rest_length hs) (fun h => h0 (List.mem_of_mem_drop h)) _ _ rfl]
      rw [List.map_cons, List.append_assoc]
      rfl

lemma readLoop_noNul {line : Str} {res : Option (List Str)}
    (h : readLoop line stream (some out) = some res) :
    ∃ ps, res = some (out ++ ps) ∧ ∀ p ∈ ps, 0 ∉ p := by
  induction hlen : stream.length using Nat.strong_induction_on generalizing stream line out with
  | h m ih =>
    rcases eq_or_ne stream [] with rfl | hs
    · rw [readLoop_nil] at h
      exact ⟨[], by rw [List.append_nil, Option.some.inj h], by simp⟩
    · rw [readLoop_cons hs] at h
      obtain ⟨line', -, h⟩ := Option.bind_eq_some_iff.mp h
      obtain ⟨ps, hres, hps⟩ := ih _ (hlen ▸ rest_length hs) h rfl
      refine ⟨cStr line' :: ps, ?_, List.forall_mem_cons.mpr ⟨notMem_cStr _, hps⟩⟩
      rw [hres, List.append_assoc]
      rfl

/-! ### The lines of the output -/

/-- Each line goes into the buffer, with its end and a NUL after it, and has no other NUL. -/
def Fits (stream : Str) : Prop :=
  0 ∉ stream ∧ ∀ line ∈ lines lf stream, line.length < maxLen

instance (stream : Str) : Decidable (Fits stream) := inferInstanceAs (Decidable (_ ∧ _))

/-- The loop gives the lines of the stream, after what was stored before. -/
def Stores (line stream : Str) (out : List Str) : Prop :=
  readLoop line stream (some out) = some (some (out ++ (lines lf stream).map (body lf)))

lemma noNul_of_stores {line : Str} (h : Stores line stream out) : 0 ∉ stream := by
  intro h0
  obtain ⟨w, hw, hmem⟩ := exists_mem_body (e := lf) (by decide) h0
  obtain ⟨ps, hps, hno⟩ := readLoop_noNul h
  have hsame := List.append_cancel_left (Option.some.inj hps)
  exact hno _ (hsame ▸ List.mem_map_of_mem hw) hmem

lemma short_of_stores {line : Str} (h : Stores line stream out) :
    ∀ w ∈ lines lf stream, w.length < maxLen := by
  have hsame := (readLoop_chunks (noNul_of_stores h) line out).symm.trans h
  have hmap := List.append_cancel_left (Option.some.inj (Option.some.inj hsame))
  have hlen := congrArg List.length hmap
  rw [List.length_map, List.length_map] at hlen
  intro w hw
  exact Nat.lt_succ_of_le ((length_lines_le lf 16382 stream).2 hlen w hw)

lemma stores_of_fits (h : Fits stream) (line : Str) (out : List Str) : Stores line stream out := by
  unfold Stores
  rw [readLoop_chunks h.1, chunks_eq_lines fun w hw => Nat.le_of_lt_succ (h.2 w hw)]

lemma stores_iff {line : Str} : Stores line stream out ↔ Fits stream :=
  ⟨fun h => ⟨noNul_of_stores h, short_of_stores h⟩, fun h => stores_of_fits h line out⟩

lemma runCommand_outputLines (stream : Str) (pclose : ℤ) (out : List Str) (exitStatus : Option ℤ) :
    (runCommand (some stream) pclose (some out) exitStatus).map Outcome.outputLines =
      readLoop (List.replicate maxLen 0) stream (some out) := by
  simp only [runCommand]
  cases readLoop (List.replicate maxLen 0) stream (some out) with
  | none => rfl
  | some res => dsimp only; split_ifs <;> rfl

/-- **`run_command` stores the lines of the output, without their ends, exactly if there is no NUL
in it and each line goes into the buffer.** Else it accesses the buffer outside its bounds or
stores something else. -/
theorem run_command_lines_iff (stream : Str) (pclose : ℤ) (out : List Str)
    (exitStatus : Option ℤ) :
    (runCommand (some stream) pclose (some out) exitStatus).map Outcome.outputLines =
      some (some (out ++ (lines lf stream).map (body lf))) ↔ Fits stream := by
  rw [runCommand_outputLines]
  exact stores_iff

/-- A command that prints one NUL. The loop looks for the end of the line before the buffer. -/
theorem run_command_nul :
    (runCommand (some [0]) 0 (some []) none).map Outcome.outputLines = none ∧
      (runCommand (some [0]) 0 (some []) none).map Outcome.outputLines ≠
        some (some ([] ++ (lines lf [0]).map (body lf))) := by
  have hnone : (runCommand (some [0]) 0 (some []) none).map Outcome.outputLines = none := by
    rw [runCommand_outputLines, readLoop_cons (List.cons_ne_nil _ _)]
    decide +kernel
  refine ⟨hnone, ?_⟩
  rw [hnone]
  exact nofun

end Libchef.ExecLines
