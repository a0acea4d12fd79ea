import Lci.Machine

/-! What a matching engine is for. Every key has at most one queue of waiting entries, all of one
kind (incoming sends or posted receives), oldest first. An insert of the other kind than the
queue's matches the oldest entry, removes it and returns its value; any other insert waits at the
end of the key's queue, which it creates when the key has none. A waiting queue is never empty:
it is a first value and the rest, so an empty queue cannot be built. Both engines of the library,
the hashed map and the two global lists, are shown to refine this machine. -/

namespace Lci.Matching

/-- `matching_entry_type_t`: an incoming send or a posted receive. -/
inductive InsertType
  | send
  | recv
  deriving DecidableEq, Repr

/-- The waiting entries of one key: their kind and their values, oldest first. -/
structure Waiting (α : Type) where
  type : InsertType
  first : α
  rest : List α
  deriving DecidableEq, Repr

variable {K α : Type}

/-- The kind an insert of kind `type` is matched against. -/
def InsertType.opposite : InsertType → InsertType
  | .send => .recv
  | .recv => .send

@[simp] theorem InsertType.opposite_opposite (t : InsertType) : t.opposite.opposite = t := by
  cases t <;> rfl

theorem InsertType.opposite_ne (t : InsertType) : t.opposite ≠ t := by
  cases t <;> simp [InsertType.opposite]

/-- The values of a waiting queue, oldest first. -/
def Waiting.values (w : Waiting α) : List α := w.first :: w.rest

/-- The queue left when the oldest entry of a queue of kind `type` with the values `vs` after it
has been matched: nothing when it was the last one. -/
def Waiting.ofRest (type : InsertType) : List α → Option (Waiting α)
  | [] => none
  | v :: vs => some ⟨type, v, vs⟩

/-- The abstract matching engine: the waiting queue of every key. -/
abbrev Spec (K α : Type) := K → Option (Waiting α)

/-- The engine with nothing waiting. -/
def Spec.empty : Spec K α := fun _ => none

variable [DecidableEq K]

/-- One insert as the engine is meant to behave: match the oldest entry of the other kind, or
wait at the end of the key's queue. -/
def Spec.insert (m : Spec K α) (key : K) (value : α) (type : InsertType) :
    Option α × Spec K α :=
  match m key with
  | some w =>
      if w.type = type then (none, Function.update m key (some { w with rest := w.rest ++ [value] }))
      else (some w.first, Function.update m key (Waiting.ofRest w.type w.rest))
  | none => (none, Function.update m key (some ⟨type, value, []⟩))

/-- The abstract engine as a machine over `(key, value, type)` requests. -/
def Spec.step (m : Spec K α) (r : K × α × InsertType) : Option α × Spec K α :=
  m.insert r.1 r.2.1 r.2.2

theorem Spec.insert_of_none {m : Spec K α} {key : K} (h : m key = none) (value : α)
    (type : InsertType) :
    m.insert key value type = (none, Function.update m key (some ⟨type, value, []⟩)) := by
  simp only [Spec.insert, h]

theorem Spec.insert_of_same {m : Spec K α} {key : K} {w : Waiting α} (h : m key = some w)
    (value : α) (type : InsertType) (htype : w.type = type) :
    m.insert key value type =
      (none, Function.update m key (some { w with rest := w.rest ++ [value] })) := by
  simp only [Spec.insert, h, htype, if_true]

theorem Spec.insert_of_other {m : Spec K α} {key : K} {w : Waiting α} (h : m key = some w)
    (value : α) (type : InsertType) (htype : w.type ≠ type) :
    m.insert key value type = (some w.first, Function.update m key (Waiting.ofRest w.type w.rest)) := by
  simp only [Spec.insert, h, htype, if_false]

/-- An insert whose key has no entries of the other kind waits at the end of its key's queue. -/
theorem Spec.insert_of_ofRest {m : Spec K α} {key : K} {type : InsertType} {vs : List α}
    (h : m key = Waiting.ofRest type vs) (value : α) :
    m.insert key value type = (none, Function.update m key (Waiting.ofRest type (vs ++ [value]))) := by
  cases vs with
  | nil => exact Spec.insert_of_none h value type
  | cons v vs => exact Spec.insert_of_same h value type rfl

theorem Spec.insert_apply_ne (m : Spec K α) {key key' : K} (value : α) (type : InsertType)
    (hne : key' ≠ key) : (m.insert key value type).2 key' = m key' := by
  unfold Spec.insert
  split
  · split <;> exact Function.update_of_ne hne _ _
  · exact Function.update_of_ne hne _ _

theorem Spec.insert_fst_congr {m m' : Spec K α} {key : K} (h : m key = m' key) (value : α)
    (type : InsertType) : (m.insert key value type).1 = (m'.insert key value type).1 := by
  cases hk : m' key with
  | none => simp [Spec.insert, h, hk]
  | some w => by_cases ht : w.type = type <;> simp [Spec.insert, h, hk, ht]

theorem Spec.insert_self_congr {m m' : Spec K α} {key : K} (h : m key = m' key) (value : α)
    (type : InsertType) : (m.insert key value type).2 key = (m'.insert key value type).2 key := by
  cases hk : m' key with
  | none => simp [Spec.insert, h, hk]
  | some w => by_cases ht : w.type = type <;> simp [Spec.insert, h, hk, ht]

end Lci.Matching
