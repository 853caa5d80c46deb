import StoryFlow.Flow.IdMap

/-! What each operation on identity maps does to the look-ups. The order of the entries plays no part
beyond this module: a map is known by what it answers. -/

namespace StoryFlow.Flow.IdMap

universe u v

variable {α : Type u} {β : Type v}

theorem lookup_eq_some_iff {id : VertexId} {a : α} {l : List (VertexId × α)}
    (h : l.Pairwise fun p q => p.1 < q.1) : lookup id l = some a ↔ (id, a) ∈ l := by
  refine ⟨mem_of_lookup, fun hm => ?_⟩
  induction l with
  | nil => cases hm
  | cons entry rest ih =>
    obtain ⟨least, tail⟩ := List.pairwise_cons.1 h
    unfold lookup
    rcases List.mem_cons.1 hm with rfl | hm
    · exact if_pos rfl
    · have hk : entry.1 ≠ id := Int.ne_of_lt (least _ hm)
      rw [if_neg hk, ih tail hm]

theorem get?_eq_some_iff {m : IdMap α} {id : VertexId} {a : α} :
    m.get? id = some a ↔ (id, a) ∈ m.entries :=
  lookup_eq_some_iff m.sorted

@[simp] theorem get?_empty (id : VertexId) : (∅ : IdMap α).get? id = none := rfl

theorem lookup_insertEntry (id : VertexId) (a : α) (k : VertexId) (l : List (VertexId × α)) :
    lookup k (insertEntry id a l) = if k = id then some a else lookup k l := by
  induction l with
  | nil =>
    by_cases h : k = id
    · simp [insertEntry, lookup, h]
    · simp [insertEntry, lookup, h, Ne.symm h]
  | cons entry rest ih =>
    obtain ⟨key, b⟩ := entry
    unfold insertEntry
    split <;> rename_i below
    · by_cases h : k = id
      · simp [lookup, h]
      · simp [lookup, h, Ne.symm h]
    · split <;> rename_i above
      · by_cases h : key = k
        · have apart : k ≠ id := h ▸ Int.ne_of_lt above
          simp [lookup, h, apart]
        · simp [lookup, h, ih]
      · obtain rfl : id = key := Int.le_antisymm (Int.not_lt.1 above) (Int.not_lt.1 below)
        by_cases h : k = id
        · simp [lookup, h]
        · simp [lookup, h, Ne.symm h]

@[simp] theorem get?_insert (m : IdMap α) (id : VertexId) (a : α) (k : VertexId) :
    (m.insert id a).get? k = if k = id then some a else m.get? k :=
  lookup_insertEntry id a k m.entries

@[simp] theorem get?_singleton (id : VertexId) (a : α) (k : VertexId) :
    (singleton id a).get? k = if k = id then some a else none := by
  rw [singleton, get?_insert]
  rfl

theorem get?_foldl_insert (entries : List (VertexId × α)) (m : IdMap α) (k : VertexId)
    (h : entries.Pairwise fun p q => p.1 ≠ q.1) :
    (entries.foldl (fun r p => r.insert p.1 p.2) m).get? k =
      (lookup k entries).or (m.get? k) := by
  induction entries generalizing m with
  | nil => simp [lookup]
  | cons entry rest ih =>
    obtain ⟨key, a⟩ := entry
    obtain ⟨apart, tail⟩ := List.pairwise_cons.1 h
    rw [List.foldl_cons, ih _ tail, get?_insert, lookup]
    by_cases hk : key = k
    · subst hk
      have hn : lookup key rest = none := by
        cases hl : lookup key rest with
        | none => rfl
        | some b => exact absurd rfl (apart (key, b) (mem_of_lookup hl))
      simp [hn]
    · simp [hk, Ne.symm hk]

@[simp] theorem get?_union (m n : IdMap α) (k : VertexId) :
    (m.union n).get? k = (n.get? k).or (m.get? k) :=
  get?_foldl_insert n.entries m k (n.sorted.imp fun h => Int.ne_of_lt h)

theorem get?_ofList (entries : List (VertexId × α)) (k : VertexId)
    (h : entries.Pairwise fun p q => p.1 ≠ q.1) :
    (ofList entries).get? k = lookup k entries := by
  rw [ofList, get?_foldl_insert entries empty k h]
  exact Option.or_none

@[simp] theorem get?_filter (keep : VertexId → α → Bool) (m : IdMap α) (k : VertexId) :
    (m.filter keep).get? k = (m.get? k).filter (keep k) := by
  ext a
  rw [Option.filter_eq_some_iff, get?_eq_some_iff, get?_eq_some_iff]
  simp [filter]

@[simp] theorem get?_erase (m : IdMap α) (id k : VertexId) :
    (m.erase id).get? k = if k = id then none else m.get? k := by
  rw [erase, get?_filter]
  by_cases h : k = id
  · simp [h]
  · cases m.get? k <;> simp [h]

@[simp] theorem get?_map (f : VertexId → α → β) (m : IdMap α) (k : VertexId) :
    (m.map f).get? k = (m.get? k).map (f k) := by
  ext b
  rw [Option.map_eq_some_iff, get?_eq_some_iff]
  simp only [map, List.mem_map, Prod.mk.injEq, get?_eq_some_iff]
  constructor
  · rintro ⟨⟨key, a⟩, hm, rfl, rfl⟩; exact ⟨a, hm, rfl⟩
  · rintro ⟨a, hm, rfl⟩; exact ⟨(k, a), hm, rfl, rfl⟩

theorem contains_iff {m : IdMap α} {id : VertexId} :
    m.contains id = true ↔ ∃ a, m.get? id = some a := by
  rw [contains, Option.isSome_iff_exists]

theorem mem_keys {m : IdMap α} {id : VertexId} : id ∈ m.keys ↔ ∃ a, m.get? id = some a := by
  simp only [keys, List.mem_map, get?_eq_some_iff]
  constructor
  · rintro ⟨⟨key, a⟩, hm, rfl⟩; exact ⟨a, hm⟩
  · rintro ⟨a, hm⟩; exact ⟨(id, a), hm, rfl⟩

theorem contains_foldl_insert (l : List (VertexId × α)) (m : IdMap α) (k : VertexId) :
    (l.foldl (fun r p => r.insert p.1 p.2) m).contains k = true ↔
      m.contains k = true ∨ ∃ p ∈ l, p.1 = k := by
  induction l generalizing m with
  | nil => simp
  | cons entry rest ih =>
    rw [List.foldl_cons, ih, contains, get?_insert]
    by_cases hk : k = entry.1
    · simp [hk]
    · simp [hk, Ne.symm hk, contains]

@[simp] theorem contains_empty (id : VertexId) : (∅ : IdMap α).contains id = false := rfl

theorem contains_ofIds {ids : List VertexId} {id : VertexId} :
    (IdSet.ofIds ids).contains id = true ↔ id ∈ ids := by
  rw [IdSet.ofIds, ofList, contains_foldl_insert]
  constructor
  · rintro (h | ⟨p, hp, rfl⟩)
    · cases h
    · obtain ⟨k, hk, rfl⟩ := List.mem_map.1 hp
      exact hk
  · exact fun h => Or.inr ⟨_, List.mem_map_of_mem h, rfl⟩

end StoryFlow.Flow.IdMap
