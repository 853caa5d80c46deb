import Mathlib.Logic.Relation
import StoryFlow.Config.Decoder
import StoryFlow.Proofs.Config.Reading

/-! What is relied on in a decoder. The nodes of a document are seen as mappings, sequences and scalars, and
a strict decoder reads from them what is written there: `Decoder.View.Strict` has one law for each kind of
value that a story is made of. What every field of a record preserves holds for the records that are
read. -/

namespace StoryFlow.Config

open Relation

/-- How the nodes of documents are seen. -/
structure Decoder.View (D : Decoder) where
  IsNull : D.Node → Prop
  IsMapping : D.Node → Prop
  /-- The entries of a mapping in the order in which they are written. -/
  entries : D.Node → List (D.Node × D.Node)
  items : D.Node → List D.Node
  /-- Whether a key merges the mapping or the mappings under it into its own. -/
  isMerge : D.Node → Bool
  /-- What a key spells where it names a field. -/
  spelling? : D.Node → Option String

namespace Decoder.View

variable {D : Decoder} (V : D.View) {α σ : Type}

def Child (n m : D.Node) : Prop := m ∈ V.items n ∨ ∃ p ∈ V.entries n, m = p.2

def Inside : D.Node → D.Node → Prop := ReflTransGen V.Child

def own (n : D.Node) : List (D.Node × D.Node) := (V.entries n).filter (!V.isMerge ·.1)

/-- A merge key of the first node has the second one to merge. -/
def Merges (n m : D.Node) : Prop :=
  ∃ p ∈ V.entries n, V.isMerge p.1 = true ∧ (m = p.2 ∨ m ∈ V.items p.2)

def Spells (n : D.Node) (name : String) (value : D.Node) : Prop :=
  ∃ p ∈ V.own n, V.spelling? p.1 = some name ∧ value = p.2

/-- The value is given for the name, by the mapping itself or by what is merged into it. -/
def Gives (n : D.Node) (name : String) (value : D.Node) : Prop :=
  ∃ m, ReflTransGen V.Merges n m ∧ V.Spells m name value

def Fills (fields : List (Field D.Node σ)) (n : D.Node) (r next : σ) : Prop :=
  ∃ f ∈ fields, ∃ value, V.Gives n f.name value ∧ (f.read value r).Reads next

/-- Values are read without issues only as they are written. -/
structure Strict : Prop where
  finite : ∀ {n m}, V.Child n m → D.depth m < D.depth n
  /-- The items of a list are read in their order. -/
  list_items : ∀ {α type n o} {item : D.Node → Reading α}, (D.readList type item n).Reads o →
    List.Forall₂ (fun m x => (item m).Reads x) (V.items n) (o.getD [])
  /-- A value is left out only where nothing is written. -/
  optional_value : ∀ {α type n o} {read : D.Node → Reading α}, (D.readOptional type read n).Reads o →
    (o = none ∧ V.IsNull n) ∨ ∃ x, o = some x ∧ (read n).Reads x
  /-- The keys of a mapping are read in their order, and merge keys are left out. -/
  keys_in_order : ∀ {n keys}, (D.readKeys n).Reads keys → V.IsMapping n →
    List.Forall₂ (fun p key => ∀ s, key = StmtKey.text s → V.spelling? p.1 = some s) (V.own n) keys
  no_keys : ∀ {n keys}, (D.readKeys n).Reads keys → V.IsNull n → keys = []
  /-- Records are read from mappings, and where nothing is written the record is empty. -/
  record_mapping : ∀ {σ type n r} {fields : List (Field D.Node σ)} {empty before : σ},
    (D.readRecord type fields empty before n).Reads r → V.IsMapping n ∨ V.IsNull n ∧ r = empty
  /-- Keys that are not names of fields are issues. -/
  known_fields : ∀ {σ type n r} {fields : List (Field D.Node σ)} {empty before : σ},
    (D.readRecord type fields empty before n).Reads r →
      ∀ p ∈ V.own n, ∃ f ∈ fields, V.spelling? p.1 = some f.name
  /-- Keys that come twice are issues. -/
  distinct_fields : ∀ {σ type n r} {fields : List (Field D.Node σ)} {empty before : σ},
    (D.readRecord type fields empty before n).Reads r → ((V.own n).map (V.spelling? ·.1)).Nodup
  /-- The fields are read one after the other, from the entries of the mapping and from those of the
  mappings that its merge keys merge. -/
  merged_fields : ∀ {σ type n r} {fields : List (Field D.Node σ)} {empty before : σ},
    (D.readRecord type fields empty before n).Reads r → V.IsMapping n →
      ReflTransGen (V.Fills fields n) before r

variable {V} {n m value region : D.Node} {name type : String}

theorem Spells.inside (h : V.Spells n name value) : V.Inside n value := by
  obtain ⟨p, hp, -, rfl⟩ := h
  exact .single (Or.inr ⟨p, List.mem_of_mem_filter hp, rfl⟩)

theorem Merges.inside (h : V.Merges n m) : V.Inside n m := by
  obtain ⟨p, hp, -, h⟩ := h
  have merged : V.Inside n p.2 := .single (Or.inr ⟨p, hp, rfl⟩)
  rcases h with rfl | hm
  · exact merged
  · exact merged.tail (Or.inl hm)

theorem inside_of_merges (h : ReflTransGen V.Merges n m) : V.Inside n m := by
  induction h with
  | refl => exact .refl
  | tail _ step ih => exact ih.trans step.inside

theorem Gives.inside (h : V.Gives n name value) : V.Inside n value := by
  obtain ⟨m, merges, spells⟩ := h
  exact (inside_of_merges merges).trans spells.inside

/-- What a mapping does not spell itself is given by a mapping that is merged. -/
theorem Gives.merged (h : V.Gives n name value) (absent : ∀ value, ¬V.Spells n name value) :
    ∃ m, TransGen V.Merges n m ∧ V.Spells m name value := by
  obtain ⟨m, merges, spells⟩ := h
  rcases reflTransGen_iff_eq_or_transGen.1 merges with rfl | merged
  · exact absurd spells (absent value)
  · exact ⟨m, merged, spells⟩

def Keeps (V : D.View) (region : D.Node) (P : σ → Prop) (f : Field D.Node σ) : Prop :=
  ∀ ⦃value r next⦄, V.Inside region value → (f.read value r).Reads next → P r → P next

namespace Strict

variable (strict : V.Strict) {fields : List (Field D.Node σ)} {empty before r : σ} {P : σ → Prop}
include strict

theorem depth_le (h : V.Inside n m) : D.depth m ≤ D.depth n := by
  induction h with
  | refl => exact Nat.le_refl _
  | tail _ step ih =>
    have := strict.finite step
    omega

theorem record_induction (h : (D.readRecord type fields empty before n).Reads r) (base : P empty)
    (start : P before)
    (step : ∀ r next, V.Fills fields n r next → P r → P next) : P r := by
  rcases strict.record_mapping h with mapping | ⟨-, rfl⟩
  · have filled := strict.merged_fields h mapping
    clear h
    induction filled with
    | refl => exact start
    | tail _ fills ih => exact step _ _ fills ih
  · exact base

theorem record (inside : V.Inside region n) (keeps : ∀ f ∈ fields, V.Keeps region P f) (base : P empty)
    (start : P before) (h : (D.readRecord type fields empty before n).Reads r) : P r := by
  refine strict.record_induction h base start ?_
  rintro r next ⟨f, hf, value, given, reads⟩
  exact keeps f hf (inside.trans given.inside) reads

theorem part (inside : V.Inside region n) (keeps : ∀ f ∈ fields, V.Keeps region P f) (base : P empty)
    {before o : Option σ} (start : P (before.getD empty))
    (h : (D.readPart type fields empty before n).Reads o) : P (o.getD empty) := by
  rcases strict.optional_value h with ⟨rfl, -⟩ | ⟨r, rfl, hr⟩
  · exact base
  · exact strict.record inside keeps base start hr

theorem records (inside : V.Inside region n) (keeps : ∀ f ∈ fields, V.Keeps region P f) (base : P empty)
    {list : List (Option σ)} (h : (D.readRecords type fields empty n).Reads list) :
    ∀ o ∈ list, P (o.getD empty) := by
  obtain ⟨o, ho, rfl⟩ := Reading.reads_map.1 h
  have items := strict.list_items ho
  have each : ∀ m ∈ V.items n, V.Inside region m := fun m hm => inside.tail (Or.inl hm)
  generalize V.items n = ns at items each
  generalize o.getD [] = list at items
  induction items with
  | nil => simp
  | cons first _ ih =>
    obtain ⟨own, others⟩ := List.forall_mem_cons.1 each
    have start : P ((none : Option σ).getD empty) := base
    exact List.forall_mem_cons.2 ⟨strict.part own keeps base start first, ih others⟩

end Strict

end Decoder.View

end StoryFlow.Config
