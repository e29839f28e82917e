import Mathlib.Data.Finset.Card
import Mathlib.Data.List.Induction
import ScriptLang.OrderedMap

/-! A map can keep its entries in a row and, in a hash table beside it, the place of each key. Inserts
keep the two in step: the table gives for every key the place at which the key stands. So no place
that is looked up lies past the end of the row, and such a map answers what an `OrderedMap` answers.
Both are told by the history of their inserts. -/

namespace ScriptLang

variable {κ α : Type} [DecidableEq κ]

def latest? (history : List (κ × α)) (k : κ) : Option α := history.reverse.lookup k

@[simp] theorem latest?_concat (history : List (κ × α)) (e : κ × α) (k : κ) :
    latest? (history ++ [e]) k = if k = e.1 then some e.2 else latest? history k := by
  rw [latest?, List.reverse_append, List.reverse_singleton, List.singleton_append, List.lookup_cons]
  by_cases same : k = e.1
  · simp [same]
  · rw [beq_false_of_ne same, if_neg same, latest?]

theorem eraseDups_concat (ks : List κ) (k : κ) :
    (ks ++ [k]).eraseDups = if k ∈ ks then ks.eraseDups else ks.eraseDups ++ [k] := by
  rw [List.eraseDups_append]
  by_cases old : k ∈ ks
  · simp [List.removeAll, old]
  · simp [List.removeAll, old, List.eraseDups_cons]

namespace OrderedMap

variable {m : OrderedMap κ α} {k : κ} {i : Nat}

theorem position?_eq_some_iff : m.position? k = some i ↔ m.keys[i]? = some k := by
  refine ⟨keys_getElem?_of_position?, fun at_i => ?_⟩
  have isKey : k ∈ m.keys := List.mem_of_getElem? at_i
  obtain ⟨j, found⟩ := Option.ne_none_iff_exists'.1 fun none => position?_eq_none_iff.1 none isKey
  have at_j := keys_getElem?_of_position? found
  have inside := (List.getElem?_eq_some_iff.1 at_j).1
  rw [found, (List.getElem?_inj inside m.nodup).1 (at_j.trans at_i.symm)]

/-- At its place a key stands with its value. -/
theorem entry_of_position? (found : m.position? k = some i) :
    ∃ v, m.entries[i]? = some (k, v) ∧ m.get? k = some v := by
  have key := keys_getElem?_of_position? found
  rw [keys, List.getElem?_map] at key
  obtain ⟨⟨j, v⟩, entry, rfl⟩ := Option.map_eq_some_iff.1 key
  exact ⟨v, entry, by rw [get?, found, Option.bind_some, entry, Option.map_some]⟩

theorem position?_insert_of_old (old : k ∈ m.keys) (v : α) (j : κ) :
    (m.insert k v).position? j = m.position? j := by
  rw [position?, keys_insert, if_pos old, position?]

theorem position?_insert_of_new (new : k ∉ m.keys) (v : α) (j : κ) :
    (m.insert k v).position? j = if k = j then some m.size else m.position? j := by
  rw [position?, keys_insert, if_neg new, List.findIdx?_append, ← position?, ← length_keys]
  by_cases same : k = j
  · subst same
    rw [position?_eq_none_iff.2 new]
    simp
  · simp [same]

/-- An old key gets its value in its place, and a new one at the end. -/
theorem entries_insert (m : OrderedMap κ α) (k : κ) (v : α) :
    (m.insert k v).entries =
      (m.position? k).elim (m.entries ++ [(k, v)]) fun i => m.entries.set i (k, v) := by
  unfold insert
  split
  next found => simp only [found, Option.elim_some]
  next missing => simp only [missing, Option.elim_none]

def ofHistory (history : List (κ × α)) : OrderedMap κ α :=
  history.foldl (fun m e => m.insert e.1 e.2) .empty

theorem ofHistory_concat (history : List (κ × α)) (e : κ × α) :
    ofHistory (history ++ [e]) = (ofHistory history).insert e.1 e.2 := by
  rw [ofHistory, List.foldl_append]
  rfl

theorem get?_ofHistory (history : List (κ × α)) (k : κ) :
    (ofHistory history).get? k = latest? history k := by
  induction history using List.reverseRecOn with
  | nil => rfl
  | append_singleton history e ih => rw [ofHistory_concat, get?_insert, latest?_concat, ih]

theorem keys_ofHistory (history : List (κ × α)) :
    (ofHistory history).keys = (history.map Prod.fst).eraseDups := by
  induction history using List.reverseRecOn with
  | nil => rfl
  | append_singleton history e ih =>
    rw [ofHistory_concat, keys_insert, ih, List.map_append, List.map_singleton, eraseDups_concat]
    simp only [List.mem_eraseDups]

/-- The entries are the keys, each with the value put in last under it. -/
theorem entries_ofHistory (history : List (κ × α)) :
    (ofHistory history).entries.map (fun e => (e.1, some e.2)) =
      (ofHistory history).keys.map fun k => (k, latest? history k) := by
  rw [keys, List.map_map]
  refine List.map_congr_left fun e member => ?_
  obtain ⟨i, entry⟩ := List.getElem?_of_mem member
  have found : (ofHistory history).position? e.1 = some i := by
    rw [position?_eq_some_iff, keys, List.getElem?_map, entry, Option.map_some]
  obtain ⟨v, entry', value⟩ := entry_of_position? found
  have same : e = (e.1, v) := Option.some.inj (entry.symm.trans entry')
  rw [Function.comp_apply, ← get?_ofHistory, value, congrArg Prod.snd same]

theorem size_ofHistory (history : List (κ × α)) :
    (ofHistory history).size = (history.map Prod.fst).toFinset.card := by
  have same : (history.map Prod.fst).toFinset = (ofHistory history).keys.toFinset := by
    ext k
    simp only [List.mem_toFinset, keys_ofHistory, List.mem_eraseDups]
  have nodup : (ofHistory history).keys.Nodup := (ofHistory history).nodup
  rw [same, List.toFinset_card_of_nodup nodup, length_keys]

end OrderedMap

/-- Entries in a row, and a table that gives for each key the place of its entry. -/
structure IndexedMap (κ α : Type) [DecidableEq κ] [Hashable κ] where
  entries : List (κ × α)
  index : Std.HashMap κ Nat

namespace IndexedMap

variable [Hashable κ]

def empty : IndexedMap κ α := ⟨[], ∅⟩

/-- The value of a key, if it has one. There is no answer if the place of the key lies past the end
of the row. -/
def get? (m : IndexedMap κ α) (k : κ) : Option (Option α) :=
  match m.index[k]? with
  | none => some none
  | some i => (m.entries[i]?).map fun e => some e.2

/-- The value that `k` had, if it had one, and the map in which it has the value `v`. There is no
answer if the place of the key lies past the end of the row. -/
def insert? (m : IndexedMap κ α) (k : κ) (v : α) : Option (Option α × IndexedMap κ α) :=
  match m.index[k]? with
  | none => some (none, ⟨m.entries ++ [(k, v)], m.index.insert k m.entries.length⟩)
  | some i =>
    (m.entries[i]?).map fun e => (some e.2, { m with entries := m.entries.set i (e.1, v) })

def ofHistory? (history : List (κ × α)) : Option (IndexedMap κ α) :=
  history.foldlM (fun m e => (m.insert? e.1 e.2).map Prod.snd) .empty

/-- The row is that of an ordered map, and the table gives the places of its keys. -/
structure InStep (m : IndexedMap κ α) (o : OrderedMap κ α) : Prop where
  entries : m.entries = o.entries
  index : ∀ k : κ, m.index[k]? = o.position? k

namespace InStep

variable {m : IndexedMap κ α} {o : OrderedMap κ α}

theorem empty : (empty : IndexedMap κ α).InStep .empty := ⟨rfl, fun _ => Std.HashMap.getElem?_empty⟩

/-- What the table gives for a key is the place of the key. -/
theorem points (inStep : m.InStep o) {k : κ} {i : Nat} (stored : m.index[k]? = some i) :
    ∃ v, m.entries[i]? = some (k, v) := by
  rw [inStep.index] at stored
  obtain ⟨v, entry, _⟩ := OrderedMap.entry_of_position? stored
  exact ⟨v, inStep.entries ▸ entry⟩

theorem get?_eq (inStep : m.InStep o) (k : κ) : m.get? k = some (o.get? k) := by
  rw [IndexedMap.get?, inStep.index, inStep.entries]
  cases found : o.position? k with
  | none => rw [OrderedMap.get?, found, Option.bind_none]
  | some i =>
    obtain ⟨v, entry, value⟩ := OrderedMap.entry_of_position? found
    simp only [entry, value, Option.map_some]

/-- An insert answers, and keeps the table in step with the row. -/
theorem insert?_eq (inStep : m.InStep o) (k : κ) (v : α) :
    ∃ m', m.insert? k v = some (o.get? k, m') ∧ m'.InStep (o.insert k v) := by
  rw [insert?, inStep.index]
  cases found : o.position? k with
  | none =>
    have new := OrderedMap.position?_eq_none_iff.1 found
    refine ⟨_, by rw [OrderedMap.get?, found, Option.bind_none], ?_, fun j => ?_⟩
    · rw [OrderedMap.entries_insert, found, Option.elim_none, inStep.entries]
    · rw [OrderedMap.position?_insert_of_new new, Std.HashMap.getElem?_insert, inStep.index,
        inStep.entries]
      simp only [beq_iff_eq]
      rfl
  | some i =>
    have old : k ∈ o.keys := List.mem_of_getElem? (OrderedMap.position?_eq_some_iff.1 found)
    obtain ⟨w, entry, value⟩ := OrderedMap.entry_of_position? found
    simp only [inStep.entries, entry, value, Option.map_some]
    refine ⟨_, rfl, ?_, fun j => ?_⟩
    · rw [OrderedMap.entries_insert, found, Option.elim_some]
    · rw [OrderedMap.position?_insert_of_old old, inStep.index]

end InStep

theorem ofHistory?_inStep (history : List (κ × α)) :
    ∃ m, ofHistory? history = some m ∧ m.InStep (.ofHistory history) := by
  induction history using List.reverseRecOn with
  | nil => exact ⟨empty, rfl, .empty⟩
  | append_singleton history e ih =>
    obtain ⟨m, before, inStep⟩ := ih
    obtain ⟨m', answer, inStep'⟩ := inStep.insert?_eq e.1 e.2
    refine ⟨m', ?_, OrderedMap.ofHistory_concat history e ▸ inStep'⟩
    rw [ofHistory?, List.foldlM_append, ← ofHistory?, before]
    simp [answer]

end IndexedMap

/-- After any history of inserts a key has the value put in last under it, and an insert answers the
value that it replaces. The keys are listed in the order in which they came first, each once and
with its latest value, and the size is the number of different keys. In a map with an index every
place in the index is that of an entry of its own key, so the same history of inserts never leaves
the row, nor does the next look-up or insert, and all of them answer the same. -/
theorem OrderedMap.ofHistory_ordered [Hashable κ] (history : List (κ × α)) :
    (∀ k, (ofHistory history).get? k = latest? history k) ∧
      (∀ k v, (ofHistory history).getThenInsert k v =
        (latest? history k, ofHistory (history ++ [(k, v)]))) ∧
      (ofHistory history).keys = (history.map Prod.fst).eraseDups ∧
      (ofHistory history).entries.map (fun e => (e.1, some e.2)) =
        (ofHistory history).keys.map (fun k => (k, latest? history k)) ∧
      (ofHistory history).size = (history.map Prod.fst).toFinset.card ∧
      ∃ m : IndexedMap κ α, IndexedMap.ofHistory? history = some m ∧
        m.entries = (ofHistory history).entries ∧
        (∀ (k : κ) i, m.index[k]? = some i → ∃ v, m.entries[i]? = some (k, v)) ∧
        (∀ k, m.get? k = some (latest? history k)) ∧
        ∀ k v, (m.insert? k v).map Prod.fst = some (latest? history k) := by
  obtain ⟨m, answers, inStep⟩ := IndexedMap.ofHistory?_inStep history
  refine ⟨get?_ofHistory history, fun k v => ?_, keys_ofHistory history, entries_ofHistory history,
    size_ofHistory history, m, answers, inStep.entries, fun k i => inStep.points, fun k => ?_,
    fun k v => ?_⟩
  · rw [getThenInsert, get?_ofHistory, ofHistory_concat]
  · rw [inStep.get?_eq, get?_ofHistory]
  · obtain ⟨m', answer, _⟩ := inStep.insert?_eq k v
    rw [answer, Option.map_some, get?_ofHistory]

/-- A key stays where it came first. -/
example : (OrderedMap.ofHistory [("x", 1), ("y", 2), ("x", 3)]).entries = [("x", 3), ("y", 2)] := by
  decide

end ScriptLang
