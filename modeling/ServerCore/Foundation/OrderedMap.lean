import Mathlib.Data.List.Sort
import Mathlib.Order.Basic

/-!
# Ordered maps

`OrderedMap κ α` is a map from keys to values that is walked in the order of its keys. `insert` leaves
a key that is present alone. A map carries the proof that its nodes are in strict order, so a key
occurs once. The lemmas are what a lookup and the multiset of values become under `insert` and
`erase`.
-/

namespace ServerCore.Foundation

universe u v

structure OrderedMap (κ : Type u) (α : Type v) [LinearOrder κ] where
  nodes : List (κ × α)
  sorted : nodes.Pairwise fun first second ↦ first.1 < second.1

namespace OrderedMap

variable {κ : Type u} {α : Type v} [LinearOrder κ]

def empty : OrderedMap κ α := ⟨[], .nil⟩

def find (m : OrderedMap κ α) (key : κ) : Option α :=
  (m.nodes.find? fun node ↦ node.1 = key).map Prod.snd

/-- The values, in the order of their keys. -/
def values (m : OrderedMap κ α) : List α :=
  m.nodes.map Prod.snd

variable {m : OrderedMap κ α} {key other : κ} {value : α}

theorem nodup_keys (m : OrderedMap κ α) : (m.nodes.map Prod.fst).Nodup := by
  rw [List.Nodup, List.pairwise_map]
  exact m.sorted.imp fun hlt ↦ ne_of_lt hlt

theorem find_eq_some : m.find key = some value ↔ (key, value) ∈ m.nodes := by
  constructor
  · intro h
    obtain ⟨node, hnode, rfl⟩ := Option.map_eq_some_iff.mp h
    have hkey := List.find?_some hnode
    rw [decide_eq_true_eq] at hkey
    rw [← hkey]
    exact List.mem_of_find?_eq_some hnode
  · intro hmem
    have hfound : (m.nodes.find? fun node ↦ node.1 = key).isSome :=
      List.find?_isSome.mpr ⟨(key, value), hmem, by simp⟩
    obtain ⟨node, hnode⟩ := Option.isSome_iff_exists.mp hfound
    have hkey := List.find?_some hnode
    rw [decide_eq_true_eq] at hkey
    have heq := List.inj_on_of_nodup_map m.nodup_keys (List.mem_of_find?_eq_some hnode) hmem hkey
    rw [find, hnode, heq]
    rfl

theorem find_eq_none : m.find key = none ↔ ∀ value, (key, value) ∉ m.nodes := by
  simp only [← find_eq_some, Option.eq_none_iff_forall_ne_some, ne_eq]

theorem mem_values : value ∈ m.values ↔ ∃ key, m.find key = some value := by
  simp [values, find_eq_some]

/-- The nodes with a key are the one that a lookup finds. -/
theorem filter_key (m : OrderedMap κ α) (key : κ) :
    (m.nodes.filter fun node ↦ node.1 = key) = (m.find key).toList.map (Prod.mk key) := by
  have hnodup : ((m.nodes.filter fun node ↦ node.1 = key).map Prod.fst).Nodup :=
    m.nodup_keys.sublist (List.filter_sublist.map Prod.fst)
  have hhead : m.find key = (m.nodes.filter fun node ↦ node.1 = key).head?.map Prod.snd := by
    rw [find, List.head?_filter]
  have hkey : ∀ node ∈ m.nodes.filter fun node ↦ node.1 = key, node.1 = key := by
    intro node hnode
    simpa using (List.mem_filter.mp hnode).2
  rw [hhead]
  generalize (m.nodes.filter fun node ↦ node.1 = key) = nodes at hnodup hkey
  match nodes with
  | [] => rfl
  | [(other, value)] =>
    have heq := hkey (other, value) List.mem_cons_self
    simp only at heq
    subst heq
    rfl
  | (first, _) :: (second, _) :: rest =>
    have hfirst := hkey (first, _) List.mem_cons_self
    have hsecond := hkey (second, _) (List.mem_cons_of_mem _ List.mem_cons_self)
    simp only at hfirst hsecond
    simp [hfirst, hsecond] at hnodup

/-- `insert` leaves the map as it is when the key is present. -/
def insert (m : OrderedMap κ α) (key : κ) (value : α) : OrderedMap κ α :=
  if h : m.find key = none then
    ⟨m.nodes.orderedInsert (fun first second ↦ first.1 ≤ second.1) (key, value), by
      have htotal : Std.Total fun first second : κ × α ↦ first.1 ≤ second.1 :=
        ⟨fun first second ↦ le_total first.1 second.1⟩
      have htrans : IsTrans (κ × α) fun first second ↦ first.1 ≤ second.1 :=
        ⟨fun _ _ _ ↦ le_trans⟩
      have hle := (m.sorted.imp fun hlt ↦ le_of_lt hlt).orderedInsert (key, value)
      have hne : (m.nodes.orderedInsert (fun first second ↦ first.1 ≤ second.1)
          (key, value)).Pairwise fun first second ↦ first.1 ≠ second.1 := by
        rw [((List.perm_orderedInsert _ _ _).pairwise_iff fun hne ↦ Ne.symm hne)]
        refine List.pairwise_cons.mpr ⟨?_, m.sorted.imp fun hlt ↦ ne_of_lt hlt⟩
        rintro ⟨other, found⟩ hmem rfl
        exact find_eq_none.mp h found hmem
      exact hle.imp₂ (fun _ _ hle hne ↦ lt_of_le_of_ne hle hne) hne⟩
  else m

/-- `erase` of the node with this key. -/
def erase (m : OrderedMap κ α) (key : κ) : OrderedMap κ α :=
  ⟨m.nodes.filter fun node ↦ node.1 ≠ key, m.sorted.filter _⟩

theorem insert_of_find {found : α} (h : m.find key = some found) : m.insert key value = m := by
  unfold insert
  rw [dif_neg (by simp [h])]

theorem perm_insert (h : m.find key = none) :
    (m.insert key value).nodes.Perm ((key, value) :: m.nodes) := by
  unfold insert
  rw [dif_pos h]
  exact List.perm_orderedInsert _ _ _

theorem find_insert (h : m.find key = none) :
    (m.insert key value).find other = if other = key then some value else m.find other := by
  ext found
  rw [find_eq_some, (perm_insert h).mem_iff, List.mem_cons, ← find_eq_some, Prod.mk.injEq]
  split
  · rename_i heq
    subst heq
    simp [h, eq_comm]
  · rename_i hne
    simp [hne]

theorem find_insert_self (h : m.find key = none) : (m.insert key value).find key = some value := by
  rw [find_insert h, if_pos rfl]

theorem find_insert_same : (m.insert key value).find key = (m.find key).or (some value) := by
  cases h : m.find key with
  | none => rw [find_insert_self h, Option.none_or]
  | some found => rw [insert_of_find h, h, Option.some_or]

theorem find_insert_of_ne (hne : other ≠ key) : (m.insert key value).find other = m.find other := by
  cases h : m.find key with
  | none => rw [find_insert h, if_neg hne]
  | some found => rw [insert_of_find h]

theorem count_values_insert [DecidableEq α] (h : m.find key = none) (x : α) :
    (m.insert key value).values.count x = m.values.count x + if value = x then 1 else 0 :=
  calc
    (m.insert key value).values.count x = (value :: m.values).count x :=
      ((perm_insert h).map Prod.snd).count_eq x
    _ = m.values.count x + if value = x then 1 else 0 := by simp [List.count_cons]

@[simp]
theorem find_erase : (m.erase key).find other = if other = key then none else m.find other := by
  ext found
  rw [find_eq_some, erase, List.mem_filter, ← find_eq_some]
  split
  · rename_i heq
    simp [heq]
  · rename_i hne
    simp [hne]

theorem perm_erase (h : m.find key = some value) :
    m.nodes.Perm ((key, value) :: (m.erase key).nodes) := by
  have hmem := find_eq_some.mp h
  have hnodup : m.nodes.Nodup := List.Nodup.of_map _ m.nodup_keys
  have hrest : (m.erase key).nodes.Nodup := hnodup.filter _
  rw [List.perm_ext_iff_of_nodup hnodup (List.nodup_cons.mpr ⟨by simp [erase], hrest⟩)]
  rintro ⟨other, found⟩
  rw [List.mem_cons, erase, List.mem_filter, decide_eq_true_eq, Prod.mk.injEq]
  constructor
  · intro hnode
    by_cases heq : other = key
    · subst heq
      have hsame : found = value := by
        rw [← find_eq_some, h, Option.some.injEq] at hnode
        exact hnode.symm
      exact Or.inl ⟨rfl, hsame⟩
    · exact Or.inr ⟨hnode, heq⟩
  · rintro (⟨rfl, rfl⟩ | ⟨hnode, -⟩)
    · exact hmem
    · exact hnode

theorem count_values_erase [DecidableEq α] (h : m.find key = some value) (x : α) :
    m.values.count x = (m.erase key).values.count x + if value = x then 1 else 0 :=
  calc
    m.values.count x = (value :: (m.erase key).values).count x :=
      ((perm_erase h).map Prod.snd).count_eq x
    _ = (m.erase key).values.count x + if value = x then 1 else 0 := by simp [List.count_cons]

end OrderedMap

end ServerCore.Foundation
