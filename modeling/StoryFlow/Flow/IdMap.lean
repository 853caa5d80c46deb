import StoryFlow.Flow.Vertex

/-! Finite maps keyed by vertex identity. The entries are kept in increasing order of identity, which
is also the order in which graphs are shown, so two maps with the same look-ups are equal. -/

namespace StoryFlow.Flow

universe u v w

structure IdMap (α : Type u) where
  entries : List (VertexId × α)
  sorted : entries.Pairwise (fun p q => p.1 < q.1)

abbrev IdSet := IdMap Unit

namespace IdMap

variable {α : Type u} {β : Type v} {γ : Type w}

def empty : IdMap α := ⟨[], .nil⟩

instance : EmptyCollection (IdMap α) := ⟨empty⟩

instance : Inhabited (IdMap α) := ⟨empty⟩

def lookup (id : VertexId) : List (VertexId × α) → Option α
  | [] => none
  | (key, a) :: rest => if key = id then some a else lookup id rest

theorem mem_of_lookup {id : VertexId} {a : α} {l : List (VertexId × α)}
    (h : lookup id l = some a) : (id, a) ∈ l := by
  induction l with
  | nil => simp [lookup] at h
  | cons entry rest ih =>
    obtain ⟨key, b⟩ := entry
    unfold lookup at h
    split at h <;> rename_i hk
    · cases h; subst hk; exact List.mem_cons_self
    · exact List.mem_cons_of_mem _ (ih h)

def get? (m : IdMap α) (id : VertexId) : Option α := lookup id m.entries

def contains (m : IdMap α) (id : VertexId) : Bool := (m.get? id).isSome

def keys (m : IdMap α) : List VertexId := m.entries.map Prod.fst

def size (m : IdMap α) : Nat := m.entries.length

def insertEntry (id : VertexId) (a : α) : List (VertexId × α) → List (VertexId × α)
  | [] => [(id, a)]
  | (key, b) :: rest =>
    if id < key then (id, a) :: (key, b) :: rest
    else if key < id then (key, b) :: insertEntry id a rest
    else (id, a) :: rest

theorem mem_insertEntry {id : VertexId} {a : α} {l : List (VertexId × α)} {p : VertexId × α}
    (h : p ∈ insertEntry id a l) : p = (id, a) ∨ p ∈ l := by
  induction l with
  | nil => simpa [insertEntry] using h
  | cons entry rest ih =>
    obtain ⟨key, b⟩ := entry
    unfold insertEntry at h
    split at h
    · simpa using h
    · split at h
      · rcases List.mem_cons.1 h with rfl | h
        · simp
        · rcases ih h with rfl | h <;> simp [*]
      · rcases List.mem_cons.1 h with rfl | h <;> simp [*]

theorem sorted_insertEntry {id : VertexId} {a : α} {l : List (VertexId × α)}
    (h : l.Pairwise (fun p q => p.1 < q.1)) :
    (insertEntry id a l).Pairwise (fun p q => p.1 < q.1) := by
  induction l with
  | nil => simp [insertEntry]
  | cons entry rest ih =>
    obtain ⟨key, b⟩ := entry
    obtain ⟨least, tail⟩ := List.pairwise_cons.1 h
    unfold insertEntry
    split <;> rename_i below
    · refine List.pairwise_cons.2 ⟨fun p hp => ?_, h⟩
      rcases List.mem_cons.1 hp with rfl | hp
      · exact below
      · exact Int.lt_trans below (least p hp)
    · split <;> rename_i above
      · refine List.pairwise_cons.2 ⟨fun p hp => ?_, ih tail⟩
        rcases mem_insertEntry hp with rfl | hp
        · exact above
        · exact least p hp
      · obtain rfl : id = key := Int.le_antisymm (Int.not_lt.1 above) (Int.not_lt.1 below)
        exact List.pairwise_cons.2 ⟨least, tail⟩

def insert (m : IdMap α) (id : VertexId) (a : α) : IdMap α :=
  ⟨insertEntry id a m.entries, sorted_insertEntry m.sorted⟩

def singleton (id : VertexId) (a : α) : IdMap α := empty.insert id a

def ofList (entries : List (VertexId × α)) : IdMap α :=
  entries.foldl (fun m p => m.insert p.1 p.2) empty

def filter (keep : VertexId → α → Bool) (m : IdMap α) : IdMap α :=
  ⟨m.entries.filter fun p => keep p.1 p.2, m.sorted.sublist List.filter_sublist⟩

def erase (m : IdMap α) (id : VertexId) : IdMap α := m.filter fun key _ => key != id

def map (f : VertexId → α → β) (m : IdMap α) : IdMap β :=
  ⟨m.entries.map fun p => (p.1, f p.1 p.2), List.pairwise_map.2 m.sorted⟩

/-- The entries of both maps; where both have one, that of the second. -/
def union (m n : IdMap α) : IdMap α := n.entries.foldl (fun r p => r.insert p.1 p.2) m

end IdMap

def IdSet.ofIds (ids : List VertexId) : IdSet := .ofList (ids.map fun id => (id, ()))

end StoryFlow.Flow
