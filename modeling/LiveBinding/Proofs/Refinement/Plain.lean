import LiveBinding.KeyPath
import LiveBinding.Plain
import LiveBinding.Fault
import Mathlib.Data.List.Basic

/-!
# Assigning to plain data

What a path means on plain data, without cells and containers: a key of an object, a canonical
index of an array, or the `length` of an array. A key that is not there reads as `null`, and so
does any other segment of an array. No segment can be applied to a leaf.

An assignment replaces the field of an object in its place or appends it, and replaces an item of
an array or appends it at the end.

## Key definitions

- `Plain.get`: the data at a path
- `Plain.assign`, `Plain.assignAll`: the data after one assignment, and after several
- `Plain.distinct`, `Plain.rounded`: data as a model holds it, and as a snapshot shows it
-/

namespace LiveBinding

/-! ### Fields with one key each -/

namespace Fields

variable {α : Type}

/-- The fields with each key once: in the place of its first field, with the value of its last. -/
def distinct (fs : Fields α) : Fields α := fs.foldl (fun gs f => gs.put f.1 f.2) []

/-- Looking up a key is looking at the place of the key. -/
theorem get?_eq_getElem? (fs : Fields α) (key : String) :
    get? fs key = (fs.map Prod.snd)[(keys fs).idxOf key]? := by
  induction fs with
  | nil => rfl
  | cons f fs ih =>
    obtain ⟨k, a⟩ := f
    by_cases hk : k = key
    · simp [get?, hk]
    · rw [keys_cons, List.idxOf_cons_ne _ hk, List.map_cons, List.getElem?_cons_succ, ← ih]
      simp [get?, hk]

/-- Putting a key that is there replaces the value in its place. -/
theorem values_put_of_mem {fs : Fields α} {key : String} (h : key ∈ keys fs) (a : α) :
    (put fs key a).map Prod.snd = (fs.map Prod.snd).set ((keys fs).idxOf key) a := by
  induction fs with
  | nil => cases h
  | cons f fs ih =>
    obtain ⟨k, b⟩ := f
    by_cases hk : k = key
    · simp [put, hk]
    · rw [keys_cons, List.mem_cons] at h
      have hmem : key ∈ keys fs := h.resolve_left (Ne.symm hk)
      rw [keys_cons, List.idxOf_cons_ne _ hk]
      simp [put, hk, ih hmem]

/-- Fields are determined by their keys and their values. -/
theorem eq_of_keys_eq {fs gs : Fields α} (hkeys : keys fs = keys gs)
    (hvalues : fs.map Prod.snd = gs.map Prod.snd) : fs = gs := by
  induction fs generalizing gs with
  | nil =>
    cases gs with
    | nil => rfl
    | cons g gs => cases hkeys
  | cons f fs ih =>
    cases gs with
    | nil => cases hkeys
    | cons g gs =>
      rw [keys_cons, keys_cons, List.cons.injEq] at hkeys
      rw [List.map_cons, List.map_cons, List.cons.injEq] at hvalues
      rw [ih hkeys.2 hvalues.2, Prod.ext hkeys.1 hvalues.1]

end Fields

namespace Plain

/-! ### Plain data in a model -/

mutual

/-- The data with one field for each key of an object: of several fields the last counts. -/
def distinct : Plain → Plain
  | .array items => .array (distinctItems items)
  | .object fields => .object (Fields.distinct (distinctFields fields))
  | p => p

/-- The items of an array, with one field for each key of an object. -/
def distinctItems : List Plain → List Plain
  | [] => []
  | p :: ps => p.distinct :: distinctItems ps

/-- The fields of an object, with one field for each key of an object inside them. -/
def distinctFields : List (String × Plain) → List (String × Plain)
  | [] => []
  | (key, p) :: fs => (key, p.distinct) :: distinctFields fs

end

mutual

/-- The data with every number as the nearest double, written as a snapshot writes it. -/
def rounded : Plain → Plain
  | .number n => ofNumber n.toNumber
  | .array items => .array (roundedItems items)
  | .object fields => .object (roundedFields fields)
  | p => p

/-- The items of an array, rounded. -/
def roundedItems : List Plain → List Plain
  | [] => []
  | p :: ps => p.rounded :: roundedItems ps

/-- The fields of an object, rounded. -/
def roundedFields : List (String × Plain) → List (String × Plain)
  | [] => []
  | (key, p) :: fs => (key, p.rounded) :: roundedFields fs

end

theorem roundedItems_eq_map (ps : List Plain) : roundedItems ps = ps.map rounded := by
  induction ps with
  | nil => rfl
  | cons p ps ih => rw [roundedItems, ih, List.map_cons]

theorem keys_roundedFields (fs : List (String × Plain)) :
    Fields.keys (roundedFields fs) = Fields.keys fs := by
  induction fs with
  | nil => rfl
  | cons f fs ih => simp [roundedFields, ih]

theorem values_roundedFields (fs : List (String × Plain)) :
    (roundedFields fs).map Prod.snd = (fs.map Prod.snd).map rounded := by
  induction fs with
  | nil => rfl
  | cons f fs ih => simp [roundedFields, ih]

/-! ### Paths -/

/-- The kind of plain data. -/
def kind : Plain → Kind
  | .null => .null
  | .boolean _ => .boolean
  | .number _ => .number
  | .text _ => .text
  | .object _ => .mapping
  | .array _ => .sequence

/-- The data behind one segment; `none` for a leaf. -/
def step? : Plain → String → Option Plain
  | .object fields, segment => some ((Fields.get? fields segment).getD .null)
  | .array items, segment =>
    match index? segment with
    | some i => some (items[i]?.getD .null)
    | none =>
      if segment = "length" then some (.number (.integer items.length)) else some .null
  | _, _ => none

/-- The fault that no segment can be applied to a leaf. -/
def notContainer (path : KeyPath) (segment : String) (p : Plain) : Fault :=
  .pathResolution path.raw segment p.kind

/-- The data that segments lead to. -/
def lookup (path : KeyPath) : Plain → List String → Except Fault Plain
  | p, [] => .ok p
  | p, segment :: segments =>
    match p.step? segment with
    | none => .error (notContainer path segment p)
    | some child => lookup path child segments

/-- Data with other data behind a segment that is there. -/
def replace (p : Plain) (segment : String) (child : Plain) : Plain :=
  match p with
  | .object fields => .object (Fields.put fields segment child)
  | .array items =>
    match index? segment with
    | some i => .array (items.set i child)
    | none => p
  | p => p

/-- Assign data to one segment: an object gets a field, an array an item. -/
def put (path : KeyPath) (p : Plain) (segment : String) (v : Plain) : Except Fault Plain :=
  match p with
  | .object fields => .ok (.object (Fields.put fields segment v))
  | .array items =>
    match index? segment with
    | none => .error (.invalidIndex path.raw segment)
    | some i =>
      if i < items.length then .ok (.array (items.set i v))
      else if i = items.length then .ok (.array (items ++ [v]))
      else .error (.indexOutOfBounds path.raw i items.length)
  | p => .error (notContainer path segment p)

/-- Assign data to the last segment, behind its parents. -/
def assignBehind (path : KeyPath) (v : Plain) (last : String) :
    Plain → List String → Except Fault Plain
  | p, [] => put path p last v
  | p, segment :: parents =>
    match p.step? segment with
    | none => .error (notContainer path segment p)
    | some child => (assignBehind path v last child parents).map (p.replace segment)

/-- The data at a path. -/
def get (p : Plain) (path : KeyPath) : Except Fault Plain := lookup path p path.segments

/-- The data after an assignment to a path. -/
def assign (p : Plain) (path : KeyPath) (v : Plain) : Except Fault Plain :=
  assignBehind path v path.last p path.parents

/-- The data after several assignments. One that faults leaves the data as it is. -/
def assignAll (p : Plain) (calls : List (KeyPath × Plain)) : Plain :=
  calls.foldl (fun p call => (p.assign call.1 call.2.distinct).toOption.getD p) p

theorem assignAll_concat (p : Plain) (calls : List (KeyPath × Plain)) (path : KeyPath) (v : Plain) :
    p.assignAll (calls ++ [(path, v)]) =
      ((p.assignAll calls).assign path v.distinct).toOption.getD (p.assignAll calls) := by
  simp [assignAll]

end Plain

end LiveBinding
