/-!
# Keyed lists

Lists of entries under text keys, in the order in which the keys were first given. `Keyed.put`
keeps the position of a key that is already there and replaces its value, so a list built with it
has each key once (`distinct_put`).
-/

namespace Statechart

namespace Keyed

variable {α β : Type}

/-- The keys, in order. -/
def keys (es : List (String × α)) : List String := es.map Prod.fst

/-- The value under `key`. -/
def find? (key : String) (es : List (String × α)) : Option α := es.lookup key

/-- Is there an entry under `key`? -/
def has (key : String) (es : List (String × α)) : Bool := (keys es).contains key

/-- Put `value` under `key`: in the place of the entry that has this key, or else at the end. -/
def put (key : String) (value : α) : List (String × α) → List (String × α)
  | [] => [(key, value)]
  | (k, v) :: es => if k = key then (k, value) :: es else (k, v) :: put key value es

/-- The list that arises by putting the entries one after the other. -/
def ofEntries (es : List (String × α)) : List (String × α) :=
  es.foldl (fun kept e ↦ put e.1 e.2 kept) []

/-- Add `item` at the end of the list under `key`, which is empty if the key is new. -/
def push (key : String) (item : α) : List (String × List α) → List (String × List α)
  | [] => [(key, [item])]
  | (k, items) :: es =>
    if k = key then (k, items ++ [item]) :: es else (k, items) :: push key item es

/-- Take the entry under `key` out: its value and the other entries, in their order. -/
def take? (key : String) : List (String × α) → Option (α × List (String × α))
  | [] => none
  | (k, v) :: es =>
    if k = key then some (v, es) else (take? key es).map fun (w, rest) ↦ (w, (k, v) :: rest)

/-- No key occurs twice. -/
def Distinct (es : List (String × α)) : Prop := (keys es).Nodup

/-! ### Keys -/

@[simp] theorem keys_nil : keys ([] : List (String × α)) = [] := rfl

@[simp] theorem keys_cons (k : String) (v : α) (es : List (String × α)) :
    keys ((k, v) :: es) = k :: keys es := rfl

theorem keys_put (key : String) (value : α) (es : List (String × α)) :
    keys (put key value es) = if key ∈ keys es then keys es else keys es ++ [key] := by
  induction es with
  | nil => simp [put]
  | cons e es ih =>
    obtain ⟨k, v⟩ := e
    by_cases h : k = key
    · simp [put, h]
    · simp only [put, if_neg h, keys_cons, ih, List.mem_cons, Ne.symm h, false_or]
      split <;> simp

/-- A new key comes at the end. -/
theorem put_of_not_mem {key : String} {es : List (String × α)} (h : key ∉ keys es) (value : α) :
    put key value es = es ++ [(key, value)] := by
  induction es with
  | nil => rfl
  | cons e es ih =>
    rw [keys_cons, List.mem_cons, not_or] at h
    rw [put, if_neg (Ne.symm h.1), ih h.2, List.cons_append]

/-- Putting keeps keys distinct. -/
theorem distinct_put {es : List (String × α)} (h : Distinct es) (key : String) (value : α) :
    Distinct (put key value es) := by
  unfold Distinct at h ⊢
  rw [keys_put]
  split
  · exact h
  · next hk =>
    rw [List.nodup_append]
    exact ⟨h, by simp, fun a ha b hb ↦ by simp at hb; exact fun e ↦ hk (hb ▸ e ▸ ha)⟩

end Keyed

end Statechart
