import Mathlib.Algebra.GroupWithZero.Nat
import Mathlib.Data.List.Dedup

/-!
# The batched node answer

`POST /requestForeignGASPNodes` answers up to a hundred outpoints in one body:
`Packer` adds the entries in the asked order while their JSON fits the budget,
its commas counted, and replaces an entry larger than the whole budget by its
refusal (`node_batch.rs` and `provide_foreign_gasp_nodes`).

Taken from outside: the JSON of one entry, and what the single route answers.
A length in memory is below the word, so no sum here saturates.
-/

namespace OverlayEngine.NodeBatch

def notFound : String := "not_found"
def overBudget : String := "over_budget"
structure BatchOutpoint where
  txid : String
  vout : Nat
  deriving DecidableEq

structure NodeBatchEntry (Node : Type) where
  txid : String
  vout : Nat
  node : Option Node
  refused : Option String

variable {Node : Type}

def NodeBatchEntry.outpoint (e : NodeBatchEntry Node) : BatchOutpoint := ⟨e.txid, e.vout⟩

def NodeBatchEntry.tooLarge (e : NodeBatchEntry Node) : NodeBatchEntry Node := ⟨e.txid, e.vout, none, some overBudget⟩

abbrev Encode (Node : Type) := NodeBatchEntry Node → List UInt8

def opening : List UInt8 := [123, 34, 110, 111, 100, 101, 115, 34, 58, 91]
def closing : List UInt8 := [93, 125]
def comma : UInt8 := 44

def answerJson (encode : Encode Node) (nodes : List (NodeBatchEntry Node)) : List UInt8 :=
  opening ++ [comma].intercalate (nodes.map encode) ++ closing

def envelopeBytes : Nat := 12

/-! ## The packer -/

structure Packer (Node : Type) where
  budget : Nat
  used : Nat
  nodes : List (NodeBatchEntry Node)

def Packer.new (budget : Nat) : Packer Node := { budget := budget, used := envelopeBytes, nodes := [] }

section
variable (encode : Encode Node)

def carried (budget : Nat) (e : NodeBatchEntry Node) : NodeBatchEntry Node :=
  if budget < envelopeBytes + (encode e).length then e.tooLarge else e

/-- Adds the entry; `false` when the answer is full. -/
def Packer.push (p : Packer Node) (e : NodeBatchEntry Node) : Packer Node × Bool :=
  let before := if p.nodes.isEmpty then 0 else 1
  let entry := carried encode p.budget e
  let size := (encode entry).length
  if p.budget < p.used + before + size then (p, false)
  else ({ p with used := p.used + (before + size), nodes := p.nodes ++ [entry] }, true)

end

/-! ## The batch route -/

inductive EngineError where
  | invalidQuery
  | nodeNotFound
  | other

def asked (seen : List BatchOutpoint) : List BatchOutpoint → List BatchOutpoint
  | [] => []
  | o :: rest => if o ∈ seen then asked seen rest else o :: asked (o :: seen) rest

section
variable (encode : Encode Node)

theorem intercalate_append (sep : UInt8) (parts : List (List UInt8)) (last : List UInt8) :
    ([sep].intercalate (parts ++ [last])).length =
      ([sep].intercalate parts).length + ((if parts.isEmpty then 0 else 1) + last.length) := by
  induction parts with
  | nil => simp
  | cons part rest ih =>
    cases rest with
    | nil => simp [Nat.add_comm]
    | cons next tail =>
      have hnext : ([sep].intercalate (part :: ((next :: tail) ++ [last]))).length =
          part.length + 1 + ([sep].intercalate ((next :: tail) ++ [last])).length := by
        simp only [List.cons_append, List.intercalate_cons_cons, List.length_append, List.length_singleton, Nat.add_assoc]
      have hparts : ([sep].intercalate (part :: next :: tail)).length = part.length + 1 + ([sep].intercalate (next :: tail)).length := by
        simp only [List.intercalate_cons_cons, List.length_append, List.length_singleton, Nat.add_assoc]
      rw [List.cons_append, hnext, ih, hparts]
      simp only [List.isEmpty_cons, Bool.false_eq_true, if_false]
      omega

def Packer.Exact (p : Packer Node) : Prop :=
  p.used = (answerJson encode p.nodes).length ∧ (p.nodes ≠ [] ∨ envelopeBytes ≤ p.budget → p.used ≤ p.budget)

variable {encode}

theorem push_cases (p : Packer Node) (e : NodeBatchEntry Node) :
    p.push encode e = (p, false) ∨
      ((p.push encode e).2 = true ∧ (p.push encode e).1.budget = p.budget ∧ (p.push encode e).1.nodes = p.nodes ++ [carried encode p.budget e] ∧
        (p.push encode e).1.used = p.used + ((if p.nodes.isEmpty then 0 else 1) + (encode (carried encode p.budget e)).length) ∧
        (p.push encode e).1.used ≤ p.budget) := by
  by_cases hfull : p.budget < p.used + (if p.nodes.isEmpty then 0 else 1) + (encode (carried encode p.budget e)).length
  · exact .inl (if_pos hfull)
  · have hpush : p.push encode e = ({ p with
        used := p.used + ((if p.nodes.isEmpty then 0 else 1) + (encode (carried encode p.budget e)).length)
        nodes := p.nodes ++ [carried encode p.budget e] }, true) := if_neg hfull
    rw [hpush]
    refine .inr ⟨rfl, rfl, rfl, rfl, ?_⟩
    dsimp only
    omega

theorem Packer.Exact.push {p : Packer Node} (h : p.Exact encode) (e : NodeBatchEntry Node) : (p.push encode e).1.Exact encode := by
  rcases push_cases p e with hfull | ⟨-, hbudget, hnodes, hused, hfits⟩
  · rw [hfull]
    exact h
  · refine ⟨?_, fun _ => by rw [hbudget]; exact hfits⟩
    rw [hused, hnodes, h.1]
    unfold answerJson
    rw [List.map_append, List.map_singleton, List.length_append, List.length_append, List.length_append, List.length_append,
      intercalate_append, List.isEmpty_map]
    omega

end

end OverlayEngine.NodeBatch
