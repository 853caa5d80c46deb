import StoryFlow.Config.Reader
import StoryFlow.Proofs.Config.View
import StoryFlow.Proofs.Flow.Composition

/-! The kinds of statements. What a strict decoder can read has statements of one kind each at every depth:
the mapping that a statement is read from has the key of the kind and besides that a position at most. What
is given for another kind comes from a merge key. -/

namespace StoryFlow.Config

open Relation Decoder.View

namespace StmtKind

theorem ofName?_name (kind : StmtKind) : ofName? kind.name = some kind := by
  rcases kind with ⟨⟨⟩⟩ | _ | _ | _ | ⟨⟨⟩⟩ | _ | _ <;> decide

theorem name_injective {kind other : StmtKind} (h : kind.name = other.name) : kind = other := by
  have same : ofName? kind.name = ofName? other.name := congrArg ofName? h
  rw [ofName?_name, ofName?_name] at same
  exact Option.some.inj same

theorem name_ne_at (kind : StmtKind) : kind.name ≠ "at" := by
  rcases kind with ⟨⟨⟩⟩ | _ | _ | _ | ⟨⟨⟩⟩ | _ | _ <;> decide

end StmtKind

/-- The bodies inside a list of records. A record that was left out has nothing inside. -/
def bodiesOf {σ : Type} (body : σ → List (Option StmtConfig)) (list : List (Option σ)) :
    List (List (Option StmtConfig)) :=
  list.map fun o => (o.map body).getD []

def StmtConfig.bodies : StmtConfig → List (List (Option StmtConfig))
  | .menu _ _ _ options => bodiesOf OptionConfig.body options
  | .branchOn _ _ cases => bodiesOf CaseConfig.body cases
  | .ifElse _ branches elseBody => bodiesOf WhenConfig.body branches ++ [elseBody.getD []]
  | _ => []

section Statements

variable {D : Decoder} (V : D.View)

/-- Merge keys apart, the mapping has the key and besides it a position at most. -/
def SpellsOnly (n : D.Node) (key : String) : Prop :=
  ∃ names : List String, (V.own n).map (V.spelling? ·.1) = names.map some ∧
    (names.Perm [key] ∨ names.Perm [key, "at"])

mutual

/-- The statement has the kind that is the only key of the mapping besides the position. It is what is read
from the mapping, where anything for another kind is given by what is merged, and so are the statements
inside. -/
inductive StmtAt : D.Node → StmtConfig → Prop
  | read {n : D.Node} {kind : StmtKind} {depth : Nat} {r : StmtFields}
      (only : SpellsOnly V n kind.name) (enough : D.depth n ≤ depth)
      (fields : (D.readRecord "storyyaml.plain" (stmtFields D (readStmt D depth)) {} {} n).Reads r)
      (alone : ∀ other, r.holds other = true →
        other = kind ∨ ∃ m, TransGen V.Merges n m ∧ ∃ value, V.Spells m other.name value)
      (inner : ∀ body ∈ (r.ofKind kind).bodies, BodyIn n body) : StmtAt n (r.ofKind kind)

inductive BodyIn : D.Node → List (Option StmtConfig) → Prop
  | empty {n : D.Node} : BodyIn n []
  | written {n list : D.Node} {body : List (Option StmtConfig)} (inside : V.Inside n list)
      (elements : BodyAt (V.items list) body) : BodyIn n body

/-- A statement is left out only where nothing is written. -/
inductive BodyAt : List D.Node → List (Option StmtConfig) → Prop
  | nil : BodyAt [] []
  | none {n : D.Node} {ns : List D.Node} {body : List (Option StmtConfig)} (nothing : V.IsNull n)
      (rest : BodyAt ns body) : BodyAt (n :: ns) (none :: body)
  | some {n : D.Node} {ns : List D.Node} {s : StmtConfig} {body : List (Option StmtConfig)}
      (first : StmtAt n s) (rest : BodyAt ns body) : BodyAt (n :: ns) (some s :: body)

end

variable {V} in
/-- Without merge keys nothing is given for another kind. -/
theorem StmtAt.one_payload {n : D.Node} {s : StmtConfig} (h : StmtAt V n s)
    (plain : ∀ p ∈ V.entries n, V.isMerge p.1 = false) :
    ∃ kind r depth, s = StmtFields.ofKind r kind ∧ SpellsOnly V n kind.name ∧
      (D.readRecord "storyyaml.plain" (stmtFields D (readStmt D depth)) {} {} n).Reads r ∧
      ∀ other, r.holds other = true → other = kind := by
  obtain ⟨only, -, fields, alone, -⟩ := h
  refine ⟨_, _, _, rfl, only, fields, fun other holds => ?_⟩
  rcases alone other holds with same | ⟨m, merged, -⟩
  · exact same
  · obtain ⟨m', ⟨p, hp, merge, -⟩, -⟩ := TransGen.head'_iff.1 merged
    rw [plain p hp] at merge
    cases merge

def ElementAt (n : D.Node) : Option StmtConfig → Prop
  | none => V.IsNull n
  | some s => StmtAt V n s

/-- The reader reads whole statements from nodes that are less deep. -/
def Faithful (stmt : StmtReader D) (depth : Nat) : Prop :=
  ∀ ⦃m : D.Node⦄ ⦃o : Option StmtConfig⦄, D.depth m < depth → (stmt m).Reads o → ElementAt V m o

end Statements

section Keys

variable {keys : List StmtKey} {kind : String}

theorem mapM_keyText {names : List String} (h : keys.mapM keyText = .ok names) :
    keys = names.map StmtKey.text := by
  induction keys generalizing names with
  | nil =>
    cases h
    rfl
  | cons key rest ih =>
    rw [List.mapM_cons] at h
    obtain ⟨s, hs, h⟩ := ok_of_bind_ok h
    obtain ⟨others, hrest, h⟩ := ok_of_bind_ok h
    cases h
    rw [ih hrest, List.map_cons]
    cases key with
    | other shown => cases hs
    | text t =>
      cases hs
      rfl

theorem checkKind_ok (h : checkKind keys = .ok kind) :
    ∃ names : List String, keys = names.map StmtKey.text ∧ names.filter (· != "at") = [kind] := by
  obtain ⟨names, hnames, h⟩ := ok_of_bind_ok h
  refine ⟨names, mapM_keyText hnames, ?_⟩
  split at h
  · rename_i one hone
    cases h
    exact hone
  · cases h

theorem perm_of_filter {names : List String} (distinct : names.Nodup)
    (h : names.filter (· != "at") = [kind]) : names.Perm [kind] ∨ names.Perm [kind, "at"] := by
  have split := List.filter_append_perm (· != "at") names
  have rest : (names.filter fun name => !(name != "at")) = List.replicate (names.count "at") "at" := by
    have same : (fun name : String => !(name != "at")) = (· == "at") := by
      funext name
      simp [bne]
    rw [same, List.filter_beq]
  rw [h, rest] at split
  have once : names.count "at" ≤ 1 := List.nodup_iff_count_le_one.1 distinct "at"
  rcases Nat.le_one_iff_eq_zero_or_eq_one.1 once with hcount | hcount
  · rw [hcount] at split
    exact Or.inl split.symm
  · rw [hcount] at split
    exact Or.inr split.symm

end Keys

def StmtFields.Alike (r r' : StmtFields) : StmtKind → Prop
  | .text kind => r.texts kind = r'.texts kind
  | .line => r.line = r'.line
  | .run => r.run = r'.run
  | .assign => r.assign = r'.assign
  | .menu kind => r.menus kind = r'.menus kind
  | .branchOn => r.branchOn = r'.branchOn
  | .ifElse => r.ifElse = r'.ifElse

theorem StmtFields.Alike.holds_eq {r r' : StmtFields} {kind : StmtKind} (h : r.Alike r' kind) :
    r.holds kind = r'.holds kind := by
  cases kind <;> exact congrArg Option.isSome h

theorem StmtFields.Alike.bodies_eq {r r' : StmtFields} {kind : StmtKind} (h : r.Alike r' kind) :
    (r.ofKind kind).bodies = (r'.ofKind kind).bodies := by
  cases kind with
  | menu kind => exact congrArg (fun o => bodiesOf OptionConfig.body (o.getD {}).options) h
  | branchOn => exact congrArg (fun o => bodiesOf CaseConfig.body (o.getD {}).cases) h
  | ifElse =>
    exact congrArg (fun o => bodiesOf WhenConfig.body (o.getD {}).branches ++ [(o.getD {}).elseBody.getD []]) h
  | _ => rfl

section Reading

variable {D : Decoder} {V : D.View} {σ : Type} {stmt : StmtReader D} {depth : Nat}
  {n value region : D.Node} {kind other : StmtKind} {r next : StmtFields} {f : Field D.Node StmtFields}

theorem stmtField_name (kind : StmtKind) : (stmtField D stmt kind).name = kind.name := by
  cases kind <;> rfl

theorem stmtField_alike (h : ((stmtField D stmt other).read value r).Reads next) (hne : other ≠ kind) :
    next.Alike r kind := by
  cases other with
  | text written =>
    simp only [stmtField, textField, Reading.reads_bind, Reading.reads_pure] at h
    obtain ⟨text, -, rfl⟩ := h
    cases kind with
    | text kind => exact if_neg fun heq => hne (congrArg StmtKind.text heq.symm)
    | _ => rfl
  | menu written =>
    simp only [stmtField, menuField, Reading.reads_bind, Reading.reads_pure] at h
    obtain ⟨menu, -, rfl⟩ := h
    cases kind with
    | menu kind => exact if_neg fun heq => hne (congrArg StmtKind.menu heq.symm)
    | _ => rfl
  | _ =>
    simp only [stmtField, lineField, runField, assignField, branchOnField, ifField, Reading.reads_bind,
      Reading.reads_pure] at h
    obtain ⟨part, -, rfl⟩ := h
    cases kind <;> first | rfl | exact absurd rfl hne

/-- A field is that of a kind, or it leaves a record as it is for every kind. -/
theorem stmtFields_cases (hf : f ∈ stmtFields D stmt) :
    (∃ kind, f = stmtField D stmt kind) ∨
      ∀ ⦃value r next⦄, (f.read value r).Reads next → ∀ kind, next.Alike r kind := by
  rcases List.mem_cons.1 hf with rfl | hf
  · refine Or.inr fun value r next h kind => ?_
    simp only [Reading.reads_bind, Reading.reads_pure] at h
    obtain ⟨place, -, rfl⟩ := h
    cases kind <;> rfl
  · obtain ⟨kind, -, rfl⟩ := List.mem_map.1 hf
    exact Or.inl ⟨kind, rfl⟩

end Reading

section Bodies

variable {D : Decoder} {V : D.View} {α σ : Type} {stmt : StmtReader D} {depth : Nat}
  {n value region : D.Node} {kind : StmtKind} {r next : StmtFields} {type : String}

theorem Faithful.elements (hf : Faithful V stmt depth) {ns : List D.Node} {body : List (Option StmtConfig)}
    (shallow : ∀ m ∈ ns, D.depth m < depth)
    (h : List.Forall₂ (fun m o => (stmt m).Reads o) ns body) : BodyAt V ns body := by
  induction h with
  | nil => exact .nil
  | @cons m o ns body own others ih =>
    obtain ⟨first, rest⟩ := List.forall_mem_cons.1 shallow
    have element := hf first own
    cases o with
    | none => exact .none element (ih rest)
    | some s => exact .some element (ih rest)

theorem keeps_set {name : String} {set : σ → α → σ} {read : D.Node → Reading α} {P : σ → Prop}
    (h : ∀ value x r, V.Inside region value → (read value).Reads x → P r → P (set r x)) :
    V.Keeps region P ⟨name, fun n r => do return set r (← read n)⟩ := by
  intro value r next inside reads hr
  simp only [Reading.reads_bind, Reading.reads_pure] at reads
  obtain ⟨x, hx, rfl⟩ := reads
  exact h value x r inside hx hr

variable (strict : V.Strict) (hf : Faithful V stmt depth) (hn : D.depth region ≤ depth)

section Regions

include strict hf hn

theorem body_in_optional (inside : V.Inside region value) {o : Option (List (Option StmtConfig))}
    (h : (readBody? D stmt value).Reads o) : BodyIn V region (o.getD []) := by
  refine .written inside (hf.elements (fun m hm => ?_) (strict.list_items h))
  have below := strict.finite (Or.inl hm)
  have within := strict.depth_le inside
  omega

theorem body_in (inside : V.Inside region value) {body : List (Option StmtConfig)}
    (h : (readBody D stmt value).Reads body) : BodyIn V region body := by
  simp only [readBody, Reading.reads_bind, Reading.reads_pure] at h
  obtain ⟨o, ho, rfl⟩ := h
  exact body_in_optional strict hf hn inside ho

/-! The fields of the records around a body keep it inside the region. -/

theorem keeps_optionFields :
    ∀ f ∈ optionFields D stmt, V.Keeps region (fun r => BodyIn V region r.body) f := by
  simp only [optionFields, List.forall_mem_cons]
  exact ⟨keeps_set fun _ _ _ _ _ hr => hr, keeps_set fun _ _ _ _ _ hr => hr,
    keeps_set fun _ _ _ _ _ hr => hr,
    keeps_set fun _ _ _ inside hbody _ => body_in strict hf hn inside hbody, by simp⟩

theorem keeps_caseFields :
    ∀ f ∈ caseFields D stmt, V.Keeps region (fun r => BodyIn V region r.body) f := by
  simp only [caseFields, List.forall_mem_cons]
  exact ⟨keeps_set fun _ _ _ _ _ hr => hr, keeps_set fun _ _ _ _ _ hr => hr,
    keeps_set fun _ _ _ _ _ hr => hr,
    keeps_set fun _ _ _ inside hbody _ => body_in strict hf hn inside hbody, by simp⟩

theorem keeps_whenFields :
    ∀ f ∈ whenFields D stmt, V.Keeps region (fun r => BodyIn V region r.body) f := by
  simp only [whenFields, List.forall_mem_cons]
  exact ⟨keeps_set fun _ _ _ _ _ hr => hr,
    keeps_set fun _ _ _ inside hbody _ => body_in strict hf hn inside hbody, by simp⟩

theorem keeps_sceneFields :
    ∀ f ∈ sceneFields D stmt, V.Keeps region (fun r => BodyIn V region r.body) f := by
  simp only [sceneFields, List.forall_mem_cons]
  exact ⟨keeps_set fun _ _ _ _ _ hr => hr, keeps_set fun _ _ _ _ _ hr => hr,
    keeps_set fun _ _ _ _ _ hr => hr,
    keeps_set fun _ _ _ inside hbody _ => body_in strict hf hn inside hbody, by simp⟩

end Regions

theorem bodies_in_records (strict : V.Strict) (inside : V.Inside region value)
    {fields : List (Field D.Node σ)} {empty : σ} {body : σ → List (Option StmtConfig)}
    (keeps : ∀ f ∈ fields, V.Keeps region (fun r => BodyIn V region (body r)) f)
    (none : body empty = []) {list : List (Option σ)}
    (h : (D.readRecords type fields empty value).Reads list) :
    ∀ written ∈ bodiesOf body list, BodyIn V region written := by
  intro written hm
  obtain ⟨o, ho, rfl⟩ := List.mem_map.1 hm
  have base : BodyIn V region (body empty) := none ▸ .empty
  have own := strict.records inside keeps base h o ho
  cases o with
  | none => exact .empty
  | some r => exact own

section Regions

include strict hf hn

theorem keeps_menuFields : ∀ f ∈ menuFields D stmt,
    V.Keeps region (fun r => ∀ body ∈ bodiesOf OptionConfig.body r.options, BodyIn V region body) f := by
  simp only [menuFields, List.forall_mem_cons]
  exact ⟨keeps_set fun _ _ _ _ _ hr => hr, keeps_set fun _ _ _ inside hlist _ =>
    bodies_in_records strict inside (keeps_optionFields strict hf hn) rfl hlist, by simp⟩

theorem keeps_branchOnFields : ∀ f ∈ branchOnFields D stmt,
    V.Keeps region (fun r => ∀ body ∈ bodiesOf CaseConfig.body r.cases, BodyIn V region body) f := by
  simp only [branchOnFields, List.forall_mem_cons]
  exact ⟨keeps_set fun _ _ _ _ _ hr => hr, keeps_set fun _ _ _ inside hlist _ =>
    bodies_in_records strict inside (keeps_caseFields strict hf hn) rfl hlist, by simp⟩

theorem keeps_ifFields : ∀ f ∈ ifFields D stmt, V.Keeps region
    (fun r => ∀ body ∈ bodiesOf WhenConfig.body r.branches ++ [r.elseBody.getD []], BodyIn V region body)
    f := by
  simp only [ifFields, List.forall_mem_cons, List.forall_mem_append]
  refine ⟨keeps_set fun _ _ _ inside hlist hr => ⟨?_, hr.2⟩, keeps_set fun _ _ _ inside hlast hr =>
    ⟨hr.1, body_in_optional strict hf hn inside hlast, by simp⟩, by simp⟩
  exact bodies_in_records strict inside (keeps_whenFields strict hf hn) rfl hlist

theorem bodies_in_own (inside : V.Inside region value)
    (h : ((stmtField D stmt kind).read value r).Reads next)
    (before : ∀ body ∈ (r.ofKind kind).bodies, BodyIn V region body) :
    ∀ body ∈ (next.ofKind kind).bodies, BodyIn V region body := by
  cases kind with
  | menu kind =>
    simp only [stmtField, menuField, Reading.reads_bind, Reading.reads_pure] at h
    obtain ⟨menu, hmenu, rfl⟩ := h
    have own := strict.part inside (keeps_menuFields strict hf hn) (by simp [bodiesOf]) before hmenu
    simpa [StmtFields.ofKind, StmtConfig.bodies] using own
  | branchOn =>
    simp only [stmtField, branchOnField, Reading.reads_bind, Reading.reads_pure] at h
    obtain ⟨branch, hbranch, rfl⟩ := h
    exact strict.part inside (keeps_branchOnFields strict hf hn) (by simp [bodiesOf]) before hbranch
  | ifElse =>
    simp only [stmtField, ifField, Reading.reads_bind, Reading.reads_pure] at h
    obtain ⟨choice, hchoice, rfl⟩ := h
    have none : ∀ body ∈ bodiesOf WhenConfig.body ({} : IfFields).branches ++ [[]],
        BodyIn V region body := by
      simp only [bodiesOf, List.map_nil, List.nil_append, List.forall_mem_singleton]
      exact .empty
    exact strict.part inside (keeps_ifFields strict hf hn) none before hchoice
  | _ => exact fun _ hm => absurd hm List.not_mem_nil

theorem keeps_stmtFields : ∀ f ∈ stmtFields D stmt,
    V.Keeps region (fun r => ∀ kind, ∀ body ∈ (r.ofKind kind).bodies, BodyIn V region body) f := by
  intro f hfield value r next inside h before kind
  rcases stmtFields_cases hfield with ⟨other, rfl⟩ | alike
  · by_cases hkind : other = kind
    · subst hkind
      exact bodies_in_own strict hf hn inside h (before other)
    · rw [(stmtField_alike h hkind).bodies_eq]
      exact before kind
  · rw [(alike h kind).bodies_eq]
    exact before kind

end Regions

theorem bodies_in_empty (kind : StmtKind) :
    ∀ body ∈ (({} : StmtFields).ofKind kind).bodies, BodyIn V region body := by
  cases kind with
  | ifElse =>
    intro body hm
    obtain rfl : body = [] := by simpa [StmtFields.ofKind, StmtConfig.bodies, bodiesOf] using hm
    exact .empty
  | _ => simp [StmtFields.ofKind, StmtConfig.bodies, bodiesOf]

end Bodies

section Statements

variable {D : Decoder} {V : D.View} {stmt : StmtReader D} {n value : D.Node} {kind other : StmtKind}
  {r : StmtFields} {type key : String}

theorem spelled_of_texts {keys : List StmtKey} {names : List String} {entries : List (D.Node × D.Node)}
    (h : List.Forall₂ (fun p key => ∀ s, key = StmtKey.text s → V.spelling? p.1 = some s) entries keys)
    (texts : keys = names.map StmtKey.text) : entries.map (V.spelling? ·.1) = names.map some := by
  induction h generalizing names with
  | nil =>
    rw [eq_comm, List.map_eq_nil_iff] at texts
    rw [texts]
    rfl
  | cons own _ ih =>
    cases names with
    | nil => cases texts
    | cons name rest =>
      rw [List.map_cons, List.cons.injEq] at texts
      rw [List.map_cons, List.map_cons, own name texts.1, ih texts.2]

theorem SpellsOnly.eq_of_spells (only : SpellsOnly V n kind.name) (h : V.Spells n other.name value) :
    other = kind := by
  obtain ⟨names, spells, perm⟩ := only
  obtain ⟨p, hp, spelled, -⟩ := h
  have hm : some other.name ∈ names.map some := by
    rw [← spells, ← spelled]
    exact List.mem_map_of_mem hp
  obtain ⟨name, hname, same⟩ := List.mem_map.1 hm
  obtain rfl : name = other.name := Option.some.inj same
  rcases perm with perm | perm
  · exact StmtKind.name_injective (List.mem_singleton.1 (perm.mem_iff.1 hname))
  · rcases List.mem_cons.1 (perm.mem_iff.1 hname) with heq | hat
    · exact StmtKind.name_injective heq
    · exact absurd (List.mem_singleton.1 hat) other.name_ne_at

variable (strict : V.Strict)
include strict

theorem spellsOnly_of_reads {keys : List StmtKey} (hkeys : (D.readKeys n).Reads keys)
    (hkey : checkKind keys = .ok key)
    (h : (D.readRecord type (stmtFields D stmt) {} {} n).Reads r) :
    ∃ kind : StmtKind, kind.name = key ∧ SpellsOnly V n key := by
  obtain ⟨names, texts, one⟩ := checkKind_ok hkey
  have hm : key ∈ names.filter (· != "at") := by
    rw [one]
    exact List.mem_singleton_self key
  obtain ⟨hname, hne⟩ := List.mem_filter.1 hm
  rcases strict.record_mapping h with mapping | ⟨null, -⟩
  · have spells := spelled_of_texts (strict.keys_in_order hkeys mapping) texts
    have distinct : names.Nodup := by
      have nodup := strict.distinct_fields h
      rw [spells] at nodup
      exact nodup.of_map some
    have spelled : some key ∈ (V.own n).map (V.spelling? ·.1) := by
      rw [spells]
      exact List.mem_map_of_mem hname
    obtain ⟨p, hp, hkey⟩ := List.mem_map.1 spelled
    obtain ⟨f, hf, known⟩ := strict.known_fields h p hp
    obtain rfl : f.name = key := Option.some.inj (known.symm.trans hkey)
    rcases List.mem_cons.1 hf with rfl | hf
    · simp at hne
    · obtain ⟨kind, -, rfl⟩ := List.mem_map.1 hf
      exact ⟨kind, (stmtField_name kind).symm, names, spells, perm_of_filter distinct one⟩
  · -- nothing at all has no keys, so it has no kind either
    rw [strict.no_keys hkeys null, eq_comm, List.map_eq_nil_iff] at texts
    rw [texts] at hname
    cases hname

theorem gives_of_holds (h : (D.readRecord type (stmtFields D stmt) {} {} n).Reads r)
    (holds : r.holds other = true) : ∃ value, V.Gives n other.name value := by
  have empty : ∀ other, ({} : StmtFields).holds other = true → ∃ value, V.Gives n other.name value := by
    intro other holds
    cases other <;> cases holds
  refine strict.record_induction (P := fun r => ∀ other, r.holds other = true →
    ∃ value, V.Gives n other.name value) h empty empty ?_ other holds
  rintro r next ⟨f, hf, value, given, reads⟩ ih kind holds
  rcases stmtFields_cases hf with ⟨written, rfl⟩ | alike
  · by_cases hkind : written = kind
    · subst hkind
      rw [stmtField_name] at given
      exact ⟨value, given⟩
    · rw [(stmtField_alike reads hkind).holds_eq] at holds
      exact ih kind holds
  · rw [(alike reads kind).holds_eq] at holds
    exact ih kind holds

theorem alone_of_spellsOnly (only : SpellsOnly V n kind.name)
    (h : (D.readRecord type (stmtFields D stmt) {} {} n).Reads r) (holds : r.holds other = true) :
    other = kind ∨ ∃ m, TransGen V.Merges n m ∧ ∃ value, V.Spells m other.name value := by
  obtain ⟨value, given⟩ := gives_of_holds strict h holds
  by_cases hkind : other = kind
  · exact Or.inl hkind
  · obtain ⟨m, merged, spells⟩ := given.merged fun _ own => hkind (only.eq_of_spells own)
    exact Or.inr ⟨m, merged, value, spells⟩

/-- Reading a statement never runs out of depth, and whatever it reads is a statement of one kind. -/
theorem faithful_readStmt (depth : Nat) : Faithful V (readStmt D depth) depth := by
  induction depth with
  | zero => exact fun n o hn => absurd hn (Nat.not_lt_zero _)
  | succ depth ih =>
    intro n o hn h
    simp only [readStmt, Reading.reads_bind, Reading.reads_pure] at h
    obtain ⟨x, hx, rfl⟩ := h
    rcases strict.optional_value hx with ⟨rfl, null⟩ | ⟨o, rfl, hknown⟩
    · exact null
    · simp only [Reading.reads_bind, Reading.reads_checked] at hknown
      obtain ⟨⟨keys, clean⟩, ⟨hkeys, hclean⟩, hread⟩ := hknown
      dsimp only at hkeys hclean hread
      rw [if_pos hclean] at hread
      simp only [Reading.reads_bind, Reading.reads_lift, Reading.reads_pure] at hread
      obtain ⟨key, hkey, r, hr, rfl⟩ := hread
      obtain ⟨kind, rfl, only⟩ := spellsOnly_of_reads strict hkeys hkey hr
      have same : r.stmt kind.name = r.ofKind kind := by
        rw [StmtFields.stmt, StmtKind.ofName?_name]
      change StmtAt V n (r.stmt kind.name)
      rw [same]
      -- what is inside lies less deep than the statement
      have enough : D.depth n ≤ depth := Nat.le_of_lt_succ hn
      have inner := strict.record .refl (keeps_stmtFields strict ih enough) bodies_in_empty
        bodies_in_empty hr kind
      exact .read only enough hr (fun _ => alone_of_spellsOnly strict only hr) inner

end Statements

end StoryFlow.Config
