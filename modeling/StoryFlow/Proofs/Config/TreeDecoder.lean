import Mathlib.Data.List.Nodup
import StoryFlow.Config.TreeDecoder
import StoryFlow.Proofs.Config.View

/-! Documents that are read as trees are read strictly. -/

namespace StoryFlow.Document.Node

open Config

def entries : Node → List (Node × Node)
  | .mapping _ entries => entries
  | _ => []

def items : Node → List Node
  | .sequence _ items => items
  | _ => []

/-- What the node spells where it is the key of a field. -/
def spelling? : Node → Option String
  | .scalar line text plain => some (if isNull (.scalar line text plain) then "" else text)
  | _ => none

mutual

def decEq : (a b : Node) → Decidable (a = b)
  | .scalar line text plain, .scalar line' text' plain' =>
    decidable_of_iff (line = line' ∧ text = text' ∧ plain = plain') (by simp)
  | .sequence line items, .sequence line' items' =>
    have := decEqItems items items'
    decidable_of_iff (line = line' ∧ items = items') (by simp)
  | .mapping line entries, .mapping line' entries' =>
    have := decEqEntries entries entries'
    decidable_of_iff (line = line' ∧ entries = entries') (by simp)
  | .scalar _ _ _, .sequence _ _ | .scalar _ _ _, .mapping _ _ | .sequence _ _, .scalar _ _ _
  | .sequence _ _, .mapping _ _ | .mapping _ _, .scalar _ _ _ | .mapping _ _, .sequence _ _ =>
    isFalse (by simp)

def decEqItems : (a b : List Node) → Decidable (a = b)
  | [], [] => isTrue rfl
  | n :: rest, n' :: rest' =>
    have := decEq n n'
    have := decEqItems rest rest'
    decidable_of_iff (n = n' ∧ rest = rest') (by simp)
  | [], _ :: _ | _ :: _, [] => isFalse (by simp)

def decEqEntries : (a b : List (Node × Node)) → Decidable (a = b)
  | [], [] => isTrue rfl
  | (key, value) :: rest, (key', value') :: rest' =>
    have := decEq key key'
    have := decEq value value'
    have := decEqEntries rest rest'
    decidable_of_iff ((key = key' ∧ value = value') ∧ rest = rest') (by simp)
  | [], _ :: _ | _ :: _, [] => isFalse (by simp)

end

instance : DecidableEq Node := decEq

theorem depth_le_depthAll {m : Node} {list : List Node} (h : m ∈ list) : m.depth ≤ depthAll list := by
  induction list with
  | nil => cases h
  | cons n rest ih =>
    rw [depthAll]
    rcases List.mem_cons.1 h with rfl | hrest
    · omega
    · have := ih hrest
      omega

theorem depth_le_depthEntries {p : Node × Node} {list : List (Node × Node)} (h : p ∈ list) :
    p.2.depth ≤ depthEntries list := by
  induction list with
  | nil => cases h
  | cons q rest ih =>
    obtain ⟨key, value⟩ := q
    rw [depthEntries]
    rcases List.mem_cons.1 h with rfl | hrest
    · dsimp only
      omega
    · have := ih hrest
      omega

theorem depth_of_mem_items {n m : Node} (h : m ∈ n.items) : m.depth < n.depth := by
  cases n with
  | scalar => cases h
  | sequence line list =>
    have inner : m.depth ≤ depthAll list := depth_le_depthAll h
    rw [depth]
    omega
  | mapping => cases h

theorem depth_of_mem_entries {n : Node} {p : Node × Node} (h : p ∈ n.entries) :
    p.2.depth < n.depth := by
  cases n with
  | scalar => cases h
  | sequence => cases h
  | mapping line list =>
    have inner : p.2.depth ≤ depthEntries list := depth_le_depthEntries h
    rw [depth]
    omega

end StoryFlow.Document.Node

namespace StoryFlow.Config

open Document Document.Node Relation

def treeView : treeDecoder.View where
  IsNull n := isNull n = true
  IsMapping n := ∃ line list, n = Node.mapping line list
  entries := Node.entries
  items := Node.items
  isMerge := Node.isMerge
  spelling? := Node.spelling?

variable {α σ : Type} {n m key value : Node} {type : String}

@[simp] theorem not_reads_mismatch {target : String} {x : Unit} : ¬(mismatch n target).Reads x :=
  Reading.not_reads_report

@[simp] theorem not_reads_noMergedMapping {a : α} : ¬(noMergedMapping : Reading α).Reads a :=
  Reading.not_reads_ended

theorem reads_fieldName {o : Option String} :
    (fieldName key).Reads o ↔ ∃ name, key.spelling? = some name ∧ o = some name := by
  cases key with
  | scalar line text plain =>
    simp only [fieldName, readText, spelling?, Reading.reads_map, Reading.reads_pure, Option.some.injEq]
    constructor
    · rintro ⟨name, hname, rfl⟩
      exact ⟨name, hname, rfl⟩
    · rintro ⟨name, hname, rfl⟩
      exact ⟨name, hname, rfl⟩
  | sequence => simp [fieldName, spelling?]
  | mapping => simp [fieldName, spelling?]

theorem reads_readList {item : Node → Reading α} {o : Option (List α)}
    (h : (readList type item n).Reads o) :
    List.Forall₂ (fun m x => (item m).Reads x) n.items (o.getD []) := by
  cases n with
  | sequence line list =>
    obtain ⟨xs, hxs, rfl⟩ := Reading.reads_map.1 h
    exact Reading.reads_mapM.1 hxs
  | scalar line text plain =>
    by_cases hnull : isNull (.scalar line text plain)
    · simp only [readList, hnull, if_true, Reading.reads_pure] at h
      subst h
      exact .nil
    · simp [readList, hnull] at h
  | mapping line list => simp [readList, isNull] at h

theorem reads_readOptional {read : Node → Reading α} {o : Option α}
    (h : (readOptional type read n).Reads o) :
    (o = none ∧ isNull n = true) ∨ ∃ x, o = some x ∧ (read n).Reads x := by
  unfold readOptional at h
  by_cases hleft : leavesOut n
  · by_cases hnull : isNull n
    · simp only [hleft, hnull, if_true, Reading.reads_pure] at h
      exact Or.inl ⟨h.symm, hnull⟩
    · simp [hleft, hnull] at h
  · simp only [hleft, Bool.false_eq_true, if_false, Reading.reads_map] at h
    obtain ⟨x, hx, rfl⟩ := h
    exact Or.inr ⟨x, rfl, hx⟩

section Records

variable {fields : List (Field Node σ)} {seen : List String} {entries : List (Node × Node)}
  {r last empty before : σ}

theorem reads_readField {result : List String × σ}
    (h : (readField type fields seen key value r).Reads result) :
    ∃ f ∈ fields, key.spelling? = some f.name ∧ f.name ∉ seen ∧ result.1 = f.name :: seen ∧
      (f.read value r).Reads result.2 := by
  simp only [readField, Reading.reads_bind, reads_fieldName] at h
  obtain ⟨-, ⟨name, spelled, rfl⟩, h⟩ := h
  dsimp only at h
  cases known : fields.find? (·.name == name) with
  | none => simp [known] at h
  | some f =>
    have hname := List.find?_some known
    obtain rfl : f.name = name := eq_of_beq hname
    rw [known] at h
    dsimp only at h
    by_cases hseen : seen.contains f.name
    · rw [if_pos hseen] at h
      simp at h
    · simp only [hseen, Bool.false_eq_true, if_false, Reading.reads_bind, Reading.reads_pure] at h
      obtain ⟨next, reads, rfl⟩ := h
      exact ⟨f, List.mem_of_find?_eq_some known, spelled, by simpa using hseen, rfl, reads⟩

theorem names_of_readEntries (h : (readEntries type fields seen entries r).Reads last) :
    ∃ names : List String,
      (entries.filter (!·.1.isMerge)).map (·.1.spelling?) = names.map some ∧ names.Nodup ∧
        ∀ name ∈ names, name ∉ seen ∧ ∃ f ∈ fields, f.name = name := by
  induction entries generalizing seen r with
  | nil => exact ⟨[], rfl, List.nodup_nil, by simp⟩
  | cons p rest ih =>
    obtain ⟨key, value⟩ := p
    rw [readEntries] at h
    by_cases hmerge : key.isMerge
    · simp only [hmerge, if_true, Reading.reads_bind] at h
      obtain ⟨next, -, h⟩ := h
      simpa [hmerge] using ih h
    · simp only [hmerge, Bool.false_eq_true, if_false, Reading.reads_bind] at h
      obtain ⟨⟨seen', next⟩, own, h⟩ := h
      obtain ⟨f, hf, spelled, fresh, rfl, -⟩ := reads_readField own
      obtain ⟨names, spells, nodup, each⟩ := ih h
      refine ⟨f.name :: names, by simp [hmerge, spelled, spells], ?_, ?_⟩
      · exact List.nodup_cons.2 ⟨fun hm => (each _ hm).1 List.mem_cons_self, nodup⟩
      · refine List.forall_mem_cons.2 ⟨⟨fresh, f, hf, rfl⟩, fun name hname => ?_⟩
        exact ⟨fun hm => (each name hname).1 (List.mem_cons_of_mem _ hm), (each name hname).2⟩

mutual

theorem fills_of_readEntries :
    ∀ (entries : List (Node × Node)) {seen : List String} {m : Node} {r last : σ},
      (readEntries type fields seen entries r).Reads last → ReflTransGen treeView.Merges n m →
        (∀ p ∈ entries, p ∈ m.entries) → ReflTransGen (treeView.Fills fields n) r last
  | [], _, _, _, _, h, _, _ => by
    rw [readEntries, Reading.reads_pure] at h
    rw [h]
  | (key, value) :: rest, seen, m, r, last, h, merges, here => by
    obtain ⟨own, others⟩ := List.forall_mem_cons.1 here
    rw [readEntries] at h
    by_cases hmerge : key.isMerge
    · simp only [hmerge, if_true, Reading.reads_bind] at h
      obtain ⟨next, merged, later⟩ := h
      have reached : ∀ k, k = value ∨ k ∈ value.items → ReflTransGen treeView.Merges n k :=
        fun k hk => merges.tail ⟨(key, value), own, hmerge, hk⟩
      exact (fills_of_readMerged value merged reached).trans
        (fills_of_readEntries rest later merges others)
    · simp only [hmerge, Bool.false_eq_true, if_false, Reading.reads_bind] at h
      obtain ⟨⟨seen', next⟩, field, later⟩ := h
      obtain ⟨f, hf, spelled, -, -, reads⟩ := reads_readField field
      have spells : treeView.Spells m f.name value := by
        refine ⟨(key, value), List.mem_filter.2 ⟨own, ?_⟩, spelled, rfl⟩
        change (!key.isMerge) = true
        simp [hmerge]
      exact .head ⟨f, hf, value, ⟨m, merges, spells⟩, reads⟩
        (fills_of_readEntries rest later merges others)

theorem fills_of_readMerged :
    ∀ (value : Node) {r last : σ}, (readMerged type fields value r).Reads last →
      (∀ k, k = value ∨ k ∈ value.items → ReflTransGen treeView.Merges n k) →
        ReflTransGen (treeView.Fills fields n) r last
  | .mapping _ list, _, _, h, reached => by
    rw [readMerged] at h
    exact fills_of_readEntries list h (reached _ (Or.inl rfl)) fun _ hp => hp
  | .sequence _ list, _, _, h, reached => by
    rw [readMerged] at h
    exact fills_of_readMergedItems list h fun k hk => reached k (Or.inr hk)
  | .scalar _ _ _, _, _, h, _ => by simp [readMerged] at h

theorem fills_of_readMergedItems :
    ∀ (items : List Node) {r last : σ}, (readMergedItems type fields items r).Reads last →
      (∀ k ∈ items, ReflTransGen treeView.Merges n k) → ReflTransGen (treeView.Fills fields n) r last
  | [], _, _, h, _ => by
    rw [readMergedItems, Reading.reads_pure] at h
    rw [h]
  | .mapping _ list :: rest, _, _, h, reached => by
    obtain ⟨own, others⟩ := List.forall_mem_cons.1 reached
    rw [readMergedItems, Reading.reads_bind] at h
    obtain ⟨next, later, h⟩ := h
    exact (fills_of_readMergedItems rest later others).trans
      (fills_of_readEntries list h own fun _ hp => hp)
  | .sequence _ _ :: _, _, _, h, _ => by simp [readMergedItems] at h
  | .scalar _ _ _ :: _, _, _, h, _ => by simp [readMergedItems] at h

end

theorem reads_readRecord (h : (readRecord type fields empty before n).Reads r) :
    (∃ line list, n = .mapping line list ∧ (readEntries type fields [] list before).Reads r) ∨
      isNull n = true ∧ n.entries = [] ∧ r = empty := by
  cases n with
  | mapping line list => exact Or.inl ⟨line, list, rfl, h⟩
  | scalar line text plain =>
    by_cases hnull : isNull (.scalar line text plain)
    · simp only [readRecord, hnull, if_true, Reading.reads_pure] at h
      exact Or.inr ⟨hnull, rfl, h.symm⟩
    · simp [readRecord, hnull] at h
  | sequence line list => simp [readRecord, isNull] at h

theorem names_of_readRecord (h : (readRecord type fields empty before n).Reads r) :
    ∃ names : List String, (treeView.own n).map (treeView.spelling? ·.1) = names.map some ∧
      names.Nodup ∧ ∀ name ∈ names, ∃ f ∈ fields, f.name = name := by
  rcases reads_readRecord h with ⟨line, list, rfl, h⟩ | ⟨-, absent, -⟩
  · obtain ⟨names, spells, nodup, each⟩ := names_of_readEntries h
    exact ⟨names, spells, nodup, fun name hname => (each name hname).2⟩
  · have nothing : treeView.own n = [] := by
      change n.entries.filter (!·.1.isMerge) = []
      rw [absent]
      rfl
    exact ⟨[], by rw [nothing]; rfl, List.nodup_nil, by simp⟩

end Records

theorem spelling?_of_text {s : String} (h : StmtKey.ofNode n = .text s) : n.spelling? = some s := by
  cases n with
  | sequence => cases h
  | mapping => cases h
  | scalar line text plain =>
    unfold StmtKey.ofNode at h
    dsimp only at h
    split at h <;> rename_i hvalue
    all_goals first
      | cases h
        simp [spelling?, isNull, hvalue]
      | cases h

theorem reads_readKeys_mapping {line : Nat} {list : List (Node × Node)} {keys : List StmtKey}
    (h : (readKeys (.mapping line list)).Reads keys) :
    keys = (list.filter (!·.1.isMerge)).map fun p => .ofNode p.1 := by
  by_cases hmerges : mergesInside (.mapping line list)
  · simp only [readKeys, hmerges, if_true, Reading.reads_pure] at h
    exact h.symm
  · simp [readKeys, hmerges] at h

theorem reads_readKeys_null {keys : List StmtKey} (null : isNull n = true)
    (h : (readKeys n).Reads keys) : keys = [] := by
  cases n with
  | scalar line text plain =>
    simp only [readKeys, null, if_true, Reading.reads_pure] at h
    exact h.symm
  | sequence => cases null
  | mapping => cases null

theorem treeView_strict : treeView.Strict where
  finite := by
    rintro n m (hm | ⟨p, hp, rfl⟩)
    · exact depth_of_mem_items hm
    · exact depth_of_mem_entries hp
  list_items := reads_readList
  optional_value := reads_readOptional
  keys_in_order := by
    rintro n keys h ⟨line, list, rfl⟩
    rw [reads_readKeys_mapping h]
    exact List.forall₂_map_right_iff.2 (List.forall₂_same.2 fun p _ s hs => spelling?_of_text hs)
  no_keys := fun h null => reads_readKeys_null null h
  record_mapping := by
    intro σ type n r fields empty before h
    rcases reads_readRecord h with ⟨line, list, rfl, -⟩ | ⟨null, -, rfl⟩
    · exact Or.inl ⟨line, list, rfl⟩
    · exact Or.inr ⟨null, rfl⟩
  known_fields := by
    intro σ type n r fields empty before h p hp
    obtain ⟨names, spells, -, each⟩ := names_of_readRecord h
    have hm : treeView.spelling? p.1 ∈ names.map some := spells ▸ List.mem_map_of_mem hp
    obtain ⟨name, hname, hspell⟩ := List.mem_map.1 hm
    obtain ⟨f, hf, rfl⟩ := each name hname
    exact ⟨f, hf, hspell.symm⟩
  distinct_fields := by
    intro σ type n r fields empty before h
    obtain ⟨names, spells, nodup, -⟩ := names_of_readRecord h
    rw [spells]
    exact nodup.map fun _ _ same => Option.some.inj same
  merged_fields := by
    rintro σ type n r fields empty before h ⟨line, list, rfl⟩
    exact fills_of_readEntries list h .refl fun _ hp => hp

end StoryFlow.Config
