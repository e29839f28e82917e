/-! An `OrderedMap` lists its keys in the order in which they were first put in. A new
value for a key takes the place of the old one. Two laws say all about it: `get?_insert`
for the values and `keys_insert` for the order. -/

namespace ScriptLang

structure OrderedMap (κ α : Type) where
  entries : List (κ × α)
  nodup : (entries.map Prod.fst).Nodup
  deriving Repr

namespace OrderedMap

variable {κ α : Type}

def empty : OrderedMap κ α := ⟨[], List.nodup_nil⟩

instance : Inhabited (OrderedMap κ α) := ⟨empty⟩

instance : EmptyCollection (OrderedMap κ α) := ⟨empty⟩

def keys (m : OrderedMap κ α) : List κ := m.entries.map Prod.fst

def values (m : OrderedMap κ α) : List α := m.entries.map Prod.snd

def size (m : OrderedMap κ α) : Nat := m.entries.length

def isEmpty (m : OrderedMap κ α) : Bool := m.entries.isEmpty

@[simp] theorem keys_empty : (empty : OrderedMap κ α).keys = [] := rfl

theorem length_keys (m : OrderedMap κ α) : m.keys.length = m.size := by simp [keys, size]

theorem map_fst_set {l : List (κ × α)} {i : Nat} {k : κ} (v : α)
    (h : (l.map Prod.fst)[i]? = some k) : (l.set i (k, v)).map Prod.fst = l.map Prod.fst := by
  obtain ⟨hi, hk⟩ := List.getElem?_eq_some_iff.1 h
  rw [List.map_set, ← hk, List.set_getElem_self]

theorem nodup_append_of_not_mem {l : List (κ × α)} {k : κ} (v : α)
    (hl : (l.map Prod.fst).Nodup) (hk : k ∉ l.map Prod.fst) :
    ((l ++ [(k, v)]).map Prod.fst).Nodup := by
  rw [List.map_append]
  refine List.nodup_append.2 ⟨hl, by simp, ?_⟩
  intro a ha b hb
  obtain rfl := List.mem_singleton.1 hb
  rintro rfl
  exact hk ha

variable [DecidableEq κ]

def position? (m : OrderedMap κ α) (k : κ) : Option Nat := m.keys.findIdx? (· = k)

def get? (m : OrderedMap κ α) (k : κ) : Option α :=
  (m.position? k).bind fun i => (m.entries[i]?).map Prod.snd

def contains (m : OrderedMap κ α) (k : κ) : Bool := (m.position? k).isSome

theorem keys_getElem?_of_position? {m : OrderedMap κ α} {k : κ} {i : Nat}
    (h : m.position? k = some i) : m.keys[i]? = some k := by
  obtain ⟨hi, hk, _⟩ := List.findIdx?_eq_some_iff_getElem.1 h
  rw [List.getElem?_eq_getElem hi]
  simpa using hk

theorem position?_eq_none_iff {m : OrderedMap κ α} {k : κ} :
    m.position? k = none ↔ k ∉ m.keys := by
  simp only [position?, List.findIdx?_eq_none_iff, decide_eq_false_iff_not]
  exact ⟨fun h hm => h k hm rfl, fun h x hx e => h (e ▸ hx)⟩

/-- The key `k` gets the value `v`, in its old place if it has one, else at the end. -/
def insert (m : OrderedMap κ α) (k : κ) (v : α) : OrderedMap κ α :=
  match h : m.position? k with
  | some i => ⟨m.entries.set i (k, v), by
      rw [map_fst_set v (keys_getElem?_of_position? h)]
      exact m.nodup⟩
  | none =>
    ⟨m.entries ++ [(k, v)], nodup_append_of_not_mem v m.nodup (position?_eq_none_iff.1 h)⟩

def getThenInsert (m : OrderedMap κ α) (k : κ) (v : α) : Option α × OrderedMap κ α :=
  (m.get? k, m.insert k v)

theorem contains_iff {m : OrderedMap κ α} {k : κ} : m.contains k = true ↔ k ∈ m.keys := by
  rw [contains, Option.isSome_iff_ne_none, ne_eq, position?_eq_none_iff, Classical.not_not]

@[simp] theorem get?_empty (k : κ) : (empty : OrderedMap κ α).get? k = none := rfl

/-- An old key stays where it is and a new one comes last. -/
theorem keys_insert (m : OrderedMap κ α) (k : κ) (v : α) :
    (m.insert k v).keys = if k ∈ m.keys then m.keys else m.keys ++ [k] := by
  unfold insert
  split
  next i h =>
    have hk := keys_getElem?_of_position? h
    rw [if_pos (List.mem_of_getElem? hk)]
    exact map_fst_set v hk
  next h =>
    rw [if_neg (position?_eq_none_iff.1 h)]
    simp [keys]

/-- The place of a key that is in the map stays the same. -/
theorem position?_insert_of_mem {m : OrderedMap κ α} {k j : κ} (v : α) (h : j ∈ m.keys) :
    (m.insert k v).position? j = m.position? j := by
  unfold position?
  rw [keys_insert]
  split
  · rfl
  · obtain ⟨i, hi⟩ := Option.ne_none_iff_exists'.1 fun e => position?_eq_none_iff.1 e h
    rw [List.findIdx?_append]
    have : m.keys.findIdx? (· = j) = some i := hi
    rw [this]
    rfl

theorem get?_eq_none_iff {m : OrderedMap κ α} {k : κ} : m.get? k = none ↔ k ∉ m.keys := by
  unfold get?
  cases h : m.position? k with
  | none => simp [position?_eq_none_iff.1 h]
  | some i =>
    have hk := keys_getElem?_of_position? h
    obtain ⟨hi, _⟩ := List.getElem?_eq_some_iff.1 hk
    have hi' : i < m.entries.length := by simpa [keys] using hi
    simp [List.getElem?_eq_getElem hi', List.mem_of_getElem? hk]

theorem contains_eq_isSome (m : OrderedMap κ α) (k : κ) : m.contains k = (m.get? k).isSome := by
  rw [Bool.eq_iff_iff, contains_iff, Option.isSome_iff_ne_none, ne_eq, get?_eq_none_iff,
    Decidable.not_not]

/-- A key has the value put in last under it, and other keys keep theirs. -/
@[simp] theorem get?_insert (m : OrderedMap κ α) (k j : κ) (v : α) :
    (m.insert k v).get? j = if j = k then some v else m.get? j := by
  by_cases hj : j ∈ m.keys
  · have hp := position?_insert_of_mem (m := m) (k := k) v hj
    obtain ⟨i, hi⟩ := Option.ne_none_iff_exists'.1 fun e => position?_eq_none_iff.1 e hj
    have hji := keys_getElem?_of_position? hi
    unfold get?
    rw [hp, hi, Option.bind_some, Option.bind_some]
    unfold insert
    split
    next l hl =>
      have hkl := keys_getElem?_of_position? hl
      by_cases e : j = k
      · subst e
        rw [hi] at hl
        obtain rfl := Option.some.inj hl
        have hlt : i < m.entries.length := by
          simpa [keys] using (List.getElem?_eq_some_iff.1 hji).1
        simp [List.getElem?_set_self hlt]
      · have hne : l ≠ i := by
          rintro rfl
          rw [hji] at hkl
          exact e (Option.some.inj hkl)
        rw [if_neg e, List.getElem?_set_ne hne]
    next hl =>
      have e : j ≠ k := fun e => position?_eq_none_iff.1 hl (e ▸ hj)
      have hlt : i < m.entries.length := by
        simpa [keys] using (List.getElem?_eq_some_iff.1 hji).1
      rw [if_neg e, List.getElem?_append_left hlt]
  · by_cases e : j = k
    · subst e
      have hn := position?_eq_none_iff.2 hj
      have hp : (m.insert j v).position? j = some m.entries.length := by
        have h : m.keys.findIdx? (· = j) = none := hn
        unfold position?
        rw [keys_insert, if_neg hj, List.findIdx?_append, h]
        simp [keys]
      have he : (m.insert j v).entries = m.entries ++ [(j, v)] := by
        unfold insert
        split
        next i hi => exact absurd (hn.symm.trans hi) (by simp)
        next => rfl
      simp [get?, hp, he]
    · rw [if_neg e, get?_eq_none_iff.2 hj, get?_eq_none_iff, keys_insert]
      split
      · exact hj
      · simp [hj, e]

end OrderedMap

end ScriptLang
