import Ticoin.Script

/-!
# script.cpp : the standard templates

`Solver` compares a script with each of the standard templates, operation by operation.
Some opcodes of a template stand for data of the script, which is collected : a public key,
a key hash, a small integer, any number of public keys.

The first and the last data of a script with several keys are read as numbers. There always
are such data (`solver_isSome`).
-/

namespace Ticoin

open Codec

/-! ## Templates -/

def MAX_OP_RETURN_RELAY : ℕ := 40

inductive TxnOutType where
  | nonstandard
  | pubkey
  | pubkeyhash
  | scripthash
  | multisig
  | nullData
  deriving DecidableEq, Repr

/-- `mTemplates`, in the order of the types. -/
def templates : List (TxnOutType × Bytes) :=
  [(.pubkey, [OP_PUBKEY, OP_CHECKSIG]),
    (.pubkeyhash, [OP_DUP, OP_HASH160, OP_PUBKEYHASH, OP_EQUALVERIFY, OP_CHECKSIG]),
    (.multisig, [OP_SMALLINTEGER, OP_PUBKEYS, OP_SMALLINTEGER, OP_CHECKMULTISIG]),
    (.nullData, [OP_RETURN, OP_SMALLDATA]),
    (.nullData, [OP_RETURN])]

/-! ## Solver -/

/-- Collect data of the size of a public key, from the operation read before. -/
def solverPubKeys (op1 : ScriptOp) (pc1 : Bytes) (vSolutions : List Bytes) :
    ScriptOp × Bytes × List Bytes :=
  if 33 ≤ op1.vch.length ∧ op1.vch.length ≤ 65 then
    match _hop : getOp2 pc1 with
    | (none, pc1') => (⟨OP_INVALIDOPCODE, []⟩, pc1', vSolutions ++ [op1.vch])
    | (some op1', pc1') => solverPubKeys op1' pc1' (vSolutions ++ [op1.vch])
  else (op1, pc1, vSolutions)
termination_by pc1.length
decreasing_by exact length_getOp2_lt (by assumption)

/-- Compare an operation with one of the template : the data after it, unless it differs. -/
def solverOp (op1 op2 : ScriptOp) (vSolutions : List Bytes) : Option (List Bytes) :=
  if op2.opcode = OP_PUBKEY then
    if op1.vch.length < 33 ∨ 65 < op1.vch.length then none else some (vSolutions ++ [op1.vch])
  else if op2.opcode = OP_PUBKEYHASH then
    if op1.vch.length ≠ 20 then none else some (vSolutions ++ [op1.vch])
  else if op2.opcode = OP_SMALLINTEGER then
    if op1.opcode = OP_0 then some (vSolutions ++ [[0]])
    else if OP_1 ≤ op1.opcode ∧ op1.opcode ≤ OP_16 then
      some (vSolutions ++ [[op1.opcode - (OP_1 - 1)]])
    else none
  else if op2.opcode = OP_SMALLDATA then
    if op1.vch.length > MAX_OP_RETURN_RELAY then none else some vSolutions
  else if op1 ≠ op2 then none
  else some vSolutions

/-- The comparison with one template : the data if the script matches. -/
def solverMatch (pc1 pc2 : Bytes) (vSolutions : List Bytes) : Option (List Bytes) :=
  if pc1 = [] ∧ pc2 = [] then some vSolutions
  else
    match getOp2 pc1, _hop : getOp2 pc2 with
    | (none, _), _ => none
    | _, (none, _) => none
    | (some op1, pc1'), (some op2, pc2') =>
      if op2.opcode = OP_PUBKEYS then
        match solverPubKeys op1 pc1' vSolutions, _hop' : getOp2 pc2' with
        | _, (none, _) => none
        | (op1', pc1'', vSolutions'), (some op2', pc2'') =>
          match solverOp op1' op2' vSolutions' with
          | none => none
          | some vSolutions'' => solverMatch pc1'' pc2'' vSolutions''
      else
        match solverOp op1 op2 vSolutions with
        | none => none
        | some vSolutions' => solverMatch pc1' pc2' vSolutions'
termination_by pc2.length
decreasing_by
  · exact (length_getOp2_lt (by assumption)).trans (length_getOp2_lt (by assumption))
  · exact length_getOp2_lt (by assumption)

/-- The check of a script with several keys, which reads the first and the last data. -/
def checkMultisig (vSolutions : List Bytes) : Option Bool := do
  let m ← vSolutions.head? >>= List.head?
  let n ← vSolutions.getLast? >>= List.head?
  return !(m < 1 || n < 1 || m > n || vSolutions.length - 2 ≠ n.toNat)

/-- The scan of the templates. -/
def scanTemplates (script : Bytes) : List (TxnOutType × Bytes) →
    Option (Bool × TxnOutType × List Bytes)
  | [] => some (false, .nonstandard, [])
  | (type, script2) :: rest =>
    match solverMatch script script2 [] with
    | none => scanTemplates script rest
    | some vSolutions =>
      if type = .multisig then (checkMultisig vSolutions).map fun ok => (ok, type, vSolutions)
      else some (true, type, vSolutions)

/-- `Solver` : whether the script is standard, its type and the data in it. It is `none` if
data that are not there are read. -/
def solver (script : Bytes) : Option (Bool × TxnOutType × List Bytes) :=
  if isPayToScriptHash script then some (true, .scripthash, [(script.drop 2).take 20])
  else scanTemplates script templates

/-! ## Collected data -/

/-- Data added to a list, none of which is empty. -/
def Adds (vSolutions vSolutions' : List Bytes) : Prop :=
  ∃ added, vSolutions' = vSolutions ++ added ∧ [] ∉ added

theorem Adds.refl (vSolutions : List Bytes) : Adds vSolutions vSolutions :=
  ⟨[], (List.append_nil _).symm, List.not_mem_nil⟩

theorem Adds.one {vSolutions : List Bytes} {v : Bytes} (h : v ≠ []) :
    Adds vSolutions (vSolutions ++ [v]) :=
  ⟨[v], rfl, fun hmem => h (List.mem_singleton.mp hmem).symm⟩

theorem Adds.trans {vSolutions₁ vSolutions₂ vSolutions₃ : List Bytes}
    (h : Adds vSolutions₁ vSolutions₂) (h' : Adds vSolutions₂ vSolutions₃) :
    Adds vSolutions₁ vSolutions₃ := by
  obtain ⟨added, rfl, hne⟩ := h
  obtain ⟨added', rfl, hne'⟩ := h'
  exact ⟨added ++ added', List.append_assoc .., fun hmem =>
    (List.mem_append.mp hmem).elim hne hne'⟩

theorem solverPubKeys_adds (op1 : ScriptOp) (pc1 : Bytes) (vSolutions : List Bytes) :
    Adds vSolutions (solverPubKeys op1 pc1 vSolutions).2.2 := by
  fun_induction solverPubKeys op1 pc1 vSolutions with
  | case1 op1 pc1 vSolutions hsize =>
    exact .one (by rintro h; simp [h] at hsize)
  | case2 op1 pc1 vSolutions hsize op1' pc1' hop ih =>
    exact (Adds.one (by rintro h; simp [h] at hsize)).trans ih
  | case3 op1 pc1 vSolutions => exact .refl _

theorem solverOp_adds {op1 op2 : ScriptOp} {vSolutions vSolutions' : List Bytes}
    (h : solverOp op1 op2 vSolutions = some vSolutions') : Adds vSolutions vSolutions' := by
  unfold solverOp at h
  split_ifs at h with hkey hsize hhash hlen hint hzero hsmall
  all_goals cases h
  · exact .one (by rintro h; simp [h] at hsize)
  · exact .one (by rintro h; simp [h] at hlen)
  · exact .one (List.cons_ne_nil _ _)
  · exact .one (List.cons_ne_nil _ _)
  · exact .refl _
  · exact .refl _

theorem solverMatch_adds {pc1 pc2 : Bytes} {vSolutions vSolutions' : List Bytes}
    (h : solverMatch pc1 pc2 vSolutions = some vSolutions') : Adds vSolutions vSolutions' := by
  fun_induction solverMatch pc1 pc2 vSolutions with
  | case1 =>
    cases h
    exact .refl _
  | case2 | case3 | case4 | case5 | case7 => cases h
  | case6 _ _ vSolutions _ op1 pc1' _ _ _ _ _ _ _ _ _ _ _ hkeys _ hop ih =>
    have hadds := solverPubKeys_adds op1 pc1' vSolutions
    rw [hkeys] at hadds
    exact hadds.trans ((solverOp_adds hop).trans (ih h))
  | case8 _ _ _ _ _ _ _ _ _ _ _ _ hop ih => exact (solverOp_adds hop).trans (ih h)

/-- A match of the template of several keys has data, none of which is empty. -/
theorem solverMatch_smallInteger {script rest : Bytes} {vSolutions : List Bytes}
    (h : solverMatch script (OP_SMALLINTEGER :: rest) [] = some vSolutions) :
    vSolutions ≠ [] ∧ [] ∉ vSolutions := by
  obtain ⟨added, rfl, hne⟩ := solverMatch_adds h
  refine ⟨?_, hne⟩
  rw [solverMatch, if_neg fun h => List.cons_ne_nil _ _ h.2] at h
  have hop2 : getOp2 (OP_SMALLINTEGER :: rest) = (some ⟨OP_SMALLINTEGER, []⟩, rest) := rfl
  rw [hop2] at h
  split at h
  · cases h
  · cases h
  rename_i op1 pc1' op2 pc2' hop1 heq
  cases heq
  rw [if_neg (by decide)] at h
  cases hop : solverOp op1 ⟨OP_SMALLINTEGER, []⟩ [] with
  | none =>
    rw [hop] at h
    cases h
  | some data =>
    rw [hop] at h
    obtain ⟨added', hadded', -⟩ := solverMatch_adds h
    have hdata : data ≠ [] := by
      rintro rfl
      simp [solverOp, OP_SMALLINTEGER, OP_PUBKEY, OP_PUBKEYHASH] at hop
      split_ifs at hop <;> simp at hop
    rw [hadded']
    simp [hdata]

theorem checkMultisig_isSome {vSolutions : List Bytes} (hne : vSolutions ≠ [])
    (hdata : [] ∉ vSolutions) : (checkMultisig vSolutions).isSome := by
  have hhead : ∀ v ∈ vSolutions, ∃ b, v.head? = some b := fun v hv =>
    ⟨v.head fun h => hdata (h ▸ hv), List.head?_eq_some_head _⟩
  obtain ⟨m, hm⟩ := hhead _ (List.head_mem hne)
  obtain ⟨n, hn⟩ := hhead _ (List.getLast_mem hne)
  rw [checkMultisig, List.head?_eq_some_head hne, List.getLast?_eq_some_getLast hne]
  simp [hm, hn]

/-- No data are read that are not there. -/
theorem solver_isSome (script : Bytes) : (solver script).isSome := by
  have hscan : ∀ list : List (TxnOutType × Bytes),
      (∀ t ∈ list, t.1 = .multisig → ∃ rest, t.2 = OP_SMALLINTEGER :: rest) →
      (scanTemplates script list).isSome := by
    intro list hlist
    induction list with
    | nil => rfl
    | cons t rest ih =>
      rw [List.forall_mem_cons] at hlist
      rw [scanTemplates]
      cases hmatch : solverMatch script t.2 [] with
      | none => exact ih hlist.2
      | some vSolutions =>
        by_cases htype : t.1 = .multisig
        · obtain ⟨rest2, ht⟩ := hlist.1 htype
          rw [ht] at hmatch
          obtain ⟨hne, hdata⟩ := solverMatch_smallInteger hmatch
          simp [htype, checkMultisig_isSome hne hdata]
        · simp [htype]
  rw [solver]
  split
  · rfl
  · refine hscan templates fun t ht htype => ?_
    fin_cases ht
    all_goals cases htype
    exact ⟨_, rfl⟩

end Ticoin
