import ImageCoin.SignatureHash

/-!
# Deleting an instruction from a script

`FindAndDelete` compares bytes where instructions start.  On a script that decodes to its end
this filters the list of its instructions.
-/

namespace ImageCoin

open List Nat
variable {pc : Bytes}

theorem getOp_append {next vch : Bytes} {opcode : UInt8} (hop : getOp pc = .ok opcode vch next)
    (rest : Bytes) : getOp (pc ++ rest) = .ok opcode vch (next ++ rest) := by
  cases pc with
  | nil => simp [getOp] at hop
  | cons first pc =>
    simp only [getOp, cons_append] at hop ⊢
    split_ifs at hop with hpush hsize hdata
    · cases hop
      have hsize' : sizeBytes opcode ≤ pc.length := not_lt.mp hsize
      have hoperand : operandSize opcode (pc ++ rest) = operandSize opcode pc := by
        rw [operandSize, operandSize, take_append_of_le_length hsize']
      have hdata' : operandSize opcode pc ≤ (pc.drop (sizeBytes opcode)).length := not_lt.mp hdata
      rw [if_pos hpush, hoperand, drop_append_of_le_length hsize',
        take_append_of_le_length hdata', drop_append_of_le_length hdata',
        if_neg (by simp; omega), if_neg (by simp at hdata' ⊢; omega)]
    · cases hop
      rw [if_neg hpush]

variable {b : CScript} {opcode : UInt8} {vch : Bytes}

/-- A whole instruction is found where an instruction starts only if it is that one. -/
theorem isPrefixOf_iff (hb : getOp b = .ok opcode vch []) {part next data : Bytes}
    {first : UInt8} (hop : getOp pc = .ok first data next) (hpc : pc = part ++ next) :
    b.isPrefixOf pc ↔ part = b := by
  refine isPrefixOf_iff_prefix.trans ⟨?_, ?_⟩
  · rintro ⟨rest, rfl⟩
    rw [getOp_append hb, nil_append] at hop
    cases hop
    exact (append_cancel_right hpc).symm
  · rintro rfl
    exact ⟨next, hpc.symm⟩

theorem skipMatches_fuel (hb : b ≠ []) (fuel : ℕ) : ∀ fuel' pc n, pc.length ≤ fuel →
    pc.length ≤ fuel' → skipMatches b fuel pc n = skipMatches b fuel' pc n := by
  have hnil : ∀ fuel n, skipMatches b fuel [] n = ([], n) := by
    intro fuel n
    cases fuel <;> simp [skipMatches, hb]
  have hpos := length_pos_of_ne_nil hb
  induction fuel with
  | zero =>
    intro fuel' pc n hfuel _
    rw [length_eq_zero_iff.mp (le_zero.mp hfuel), hnil, hnil]
  | succ fuel ih =>
    intro fuel' pc n hfuel hfuel'
    cases fuel' with
    | zero => rw [length_eq_zero_iff.mp (le_zero.mp hfuel'), hnil, hnil]
    | succ fuel' =>
      have hdrop : (pc.drop b.length).length = pc.length - b.length := length_drop
      rw [skipMatches, skipMatches]
      split_ifs with hmatch
      · exact ih fuel' _ _ (by omega) (by omega)
      · rfl

variable {parts : List Bytes}

theorem findAndDeleteLoop_eq (hb : getOp b = .ok opcode vch []) {fuel : ℕ}
    (hparts : instructionsLoop fuel pc = some parts) :
    ∀ steps result kept n, pc.length < steps → findAndDeleteLoop b steps result (kept ++ pc) pc n =
        (result ++ kept ++ (parts.filter (· ≠ b)).flatten, n + parts.count b) := by
  have hne : b ≠ [] := by
    rintro rfl
    cases hb
  refine instructionsLoop_induction (motive := fun _ pc parts =>
    ∀ steps result kept n, pc.length < steps →
      findAndDeleteLoop b steps result (kept ++ pc) pc n =
        (result ++ kept ++ (parts.filter (· ≠ b)).flatten, n + parts.count b)) ?nil ?cons hparts
  case nil =>
    intro _ steps result kept n hsteps
    obtain ⟨steps, rfl⟩ := exists_eq_succ_of_ne_zero (by omega : steps ≠ 0)
    simp [findAndDeleteLoop, skipMatches, getOp]
  case cons =>
    intro _ pc first data operand next tail hop hpc ih steps result kept n hsteps
    obtain ⟨steps, rfl⟩ := exists_eq_succ_of_ne_zero (by omega : steps ≠ 0)
    have hmatch := isPrefixOf_iff hb hop hpc
    have hlength : pc.length = operand.length + 1 + next.length := by
      rw [hpc, length_append, length_cons]
    by_cases hpart : first :: operand = b
    · -- The match is skipped, and the scan goes on as if it had started behind it.
      have hskip : skipMatches b pc.length pc n = skipMatches b next.length next (n + 1) := by
        rw [hlength, add_right_comm, skipMatches, if_pos (hmatch.mpr hpart), hpc, hpart, drop_left]
        exact skipMatches_fuel hne _ _ _ _ (le_add_left _ _) le_rfl
      have hnext := ih (steps + 1) (result ++ kept) [] (n + 1) (by omega)
      rw [nil_append, findAndDeleteLoop] at hnext
      rw [findAndDeleteLoop, hskip, hpart]
      simpa [add_comm, add_left_comm] using hnext
    · have hskip : skipMatches b pc.length pc n = (pc, n) := by
        rw [hlength, add_right_comm, skipMatches, if_neg (mt hmatch.mp hpart)]
      have hnext := ih steps (result ++ kept) (first :: operand) n (by omega)
      rw [← hpc] at hnext
      rw [findAndDeleteLoop, hskip]
      simpa [hop, hpart] using hnext

theorem flatten_of_instructionsLoop {fuel : ℕ}
    (hparts : instructionsLoop fuel pc = some parts) : parts.flatten = pc := by
  refine instructionsLoop_induction (motive := fun _ pc parts => parts.flatten = pc)
    (fun _ => rfl) ?_ hparts
  intro _ pc first data operand next tail _ hpc ih
  rw [flatten_cons, ih, hpc]

/-- The scan over bytes filters the instructions. -/
theorem findAndDelete_eq {script : CScript} {parts : List Bytes}
    (hparts : instructions script = some parts) (hb : getOp b = .ok opcode vch []) :
    findAndDelete script b = ((parts.filter (· ≠ b)).flatten, parts.count b) := by
  have hne : b ≠ [] := by
    rintro rfl
    cases hb
  have hloop := findAndDeleteLoop_eq hb hparts (script.length + 1) [] [] 0 (lt_succ_self _)
  simp only [List.nil_append, zero_add] at hloop
  rw [findAndDelete, if_neg hne, hloop]
  simp only
  split_ifs with hfound
  · rfl
  · have hnot : b ∉ parts := List.count_eq_zero.mp (by omega)
    rw [List.filter_eq_self.mpr, flatten_of_instructionsLoop hparts]
    intro part hpart
    simpa using fun heq : part = b => hnot (heq ▸ hpart)

/-- The push inside the data of another one stays. -/
theorem findAndDelete_push : findAndDelete [0x01, 0xaa, 0x02, 0x01, 0xaa, 0x01, 0xaa] [0x01, 0xaa] =
      ([0x02, 0x01, 0xaa], 2) :=
  findAndDelete_eq
    (by decide : instructions _ = some [[0x01, 0xaa], [0x02, 0x01, 0xaa], [0x01, 0xaa]])
    (by decide : getOp _ = .ok 0x01 [0xaa] [])

end ImageCoin
