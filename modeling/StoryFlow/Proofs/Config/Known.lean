import StoryFlow.Config.Binding
import StoryFlow.Proofs.Config.Kinds
import StoryFlow.Proofs.Config.TreeDecoder
import StoryFlow.Proofs.Flow.Totality

/-! Stories that were read. Their statements have one kind each, so the binding can fail at what a statement
lacks, but not at a kind that is unknown. -/

namespace StoryFlow.Config

/-- The binding does not fail at an unknown kind. -/
def KnowsKinds {α : Type} (b : Binding α) : Prop :=
  ∀ e, b = .error e → ∀ kind, e.problem ≠ .unknownKind kind

section Results

variable {α β : Type}

theorem knows_ok {a : α} : KnowsKinds (.ok a) := by
  intro e h
  cases h

theorem knows_refuse {problem : BindProblem} (h : ∀ kind, problem ≠ .unknownKind kind) :
    KnowsKinds (refuse problem : Binding α) := by
  intro e he
  cases he
  exact h

theorem KnowsKinds.bind {m : Binding α} {next : α → Binding β} (h : KnowsKinds m)
    (hnext : ∀ a, KnowsKinds (next a)) : KnowsKinds (m >>= next) := by
  cases m with
  | error e =>
    intro e' he'
    cases he'
    exact h e rfl
  | ok a => exact hnext a

theorem KnowsKinds.inside {context : String} {m : Binding α} (h : KnowsKinds m) :
    KnowsKinds (inside context m) := by
  cases m with
  | error e =>
    intro e' he'
    cases he'
    exact h e rfl
  | ok a => exact knows_ok

theorem knows_element {o : Option α} : KnowsKinds (element o) := by
  cases o with
  | none => exact knows_refuse (by simp)
  | some a => exact knows_ok

theorem knows_ofSymbols {r : Except SymbolError α} : KnowsKinds (ofSymbols r) := by
  cases r with
  | error e => exact knows_refuse (by simp)
  | ok a => exact knows_ok

end Results

section Bodies

variable {path : String} {index : Nat}

theorem knows_locate {place : String} : KnowsKinds (locate path place) := by
  unfold locate
  split
  · exact knows_ok
  · split
    · exact knows_ok
    · exact knows_refuse (by simp)

theorem knows_bindPlain {place kind : String} {action : Action} :
    KnowsKinds (bindPlain path place kind action) :=
  knows_locate.inside.bind fun _ => knows_ok

theorem knows_textAction {kind : TextKind} {value : Option String} :
    KnowsKinds (textAction kind value) := by
  cases kind <;> cases value
  all_goals first
    | exact knows_ok
    | exact (knows_refuse (by simp)).inside

theorem knows_checkCase {options : List String} {other : Bool} :
    KnowsKinds (checkCase index options other) := by
  unfold checkCase
  split
  · exact knows_refuse (by simp)
  · split
    · exact knows_refuse (by simp)
    · exact knows_ok

def KnowsBodies (path : String) (bodies : List (List (Option StmtConfig))) : Prop :=
  ∀ body ∈ bodies, ∀ index, KnowsKinds (bindBody path index body)

theorem knows_bindElse {body : Option (List (Option StmtConfig))} (h : KnowsBodies path [body.getD []]) :
    KnowsKinds (bindElse path body) := by
  cases body with
  | none =>
    rw [bindElse]
    exact knows_ok
  | some body =>
    rw [bindElse]
    exact (h body List.mem_cons_self 0).inside

theorem knows_bindOptions {options : List (Option OptionConfig)}
    (h : KnowsBodies path (bodiesOf OptionConfig.body options)) :
    KnowsKinds (bindOptions path index options) := by
  induction options generalizing index with
  | nil =>
    rw [bindOptions]
    exact knows_ok
  | cons o rest ih =>
    obtain ⟨own, others⟩ := List.forall_mem_cons.1 h
    cases o with
    | none =>
      rw [bindOptions]
      exact knows_refuse (by simp)
    | some o =>
      obtain ⟨label, loop, place, body⟩ := o
      rw [bindOptions]
      exact (own 0).inside.bind fun _ => knows_locate.bind fun _ => (ih others).bind fun _ => knows_ok

theorem knows_bindCases {cases : List (Option CaseConfig)}
    (h : KnowsBodies path (bodiesOf CaseConfig.body cases)) :
    KnowsKinds (bindCases path index cases) := by
  induction cases generalizing index with
  | nil =>
    rw [bindCases]
    exact knows_ok
  | cons c rest ih =>
    obtain ⟨own, others⟩ := List.forall_mem_cons.1 h
    cases c with
    | none =>
      rw [bindCases]
      exact knows_refuse (by simp)
    | some c =>
      obtain ⟨names, other, place, body⟩ := c
      rw [bindCases]
      exact knows_checkCase.bind fun _ => (own 0).inside.bind fun _ => knows_locate.bind fun _ =>
        (ih others).bind fun _ => knows_ok

theorem knows_bindBranches {branches : List (Option WhenConfig)}
    (h : KnowsBodies path (bodiesOf WhenConfig.body branches)) :
    KnowsKinds (bindBranches path index branches) := by
  induction branches generalizing index with
  | nil =>
    rw [bindBranches]
    exact knows_ok
  | cons w rest ih =>
    obtain ⟨own, others⟩ := List.forall_mem_cons.1 h
    cases w with
    | none =>
      rw [bindBranches]
      exact knows_refuse (by simp)
    | some w =>
      obtain ⟨condition, body⟩ := w
      rw [bindBranches]
      exact (own 0).inside.bind fun _ => (ih others).bind fun _ => knows_ok

theorem knows_bindStmt {r : StmtFields} {kind : StmtKind} (h : KnowsBodies path (r.ofKind kind).bodies) :
    KnowsKinds (bindStmt path (r.ofKind kind)) := by
  cases kind with
  | text kind =>
    rw [StmtFields.ofKind, bindStmt]
    exact knows_textAction.bind fun _ => knows_bindPlain
  | line =>
    rw [StmtFields.ofKind]
    cases r.line with
    | none =>
      rw [bindStmt]
      exact knows_refuse (by simp)
    | some line =>
      rw [bindStmt]
      exact knows_bindPlain
  | run =>
    rw [StmtFields.ofKind, bindStmt]
    split
    · exact knows_refuse (by simp)
    · exact knows_bindPlain
  | assign =>
    rw [StmtFields.ofKind]
    cases r.assign with
    | none =>
      rw [bindStmt]
      exact knows_refuse (by simp)
    | some a =>
      rw [bindStmt]
      exact knows_bindPlain
  | menu kind =>
    rw [StmtFields.ofKind, bindStmt]
    exact (knows_bindOptions h).inside.bind fun _ => knows_locate.inside.bind fun _ => knows_ok
  | branchOn =>
    rw [StmtFields.ofKind, bindStmt]
    split
    · exact (knows_refuse (by simp)).inside
    · exact (knows_bindCases h).inside.bind fun _ => knows_locate.inside.bind fun _ => knows_ok
  | ifElse =>
    rw [StmtFields.ofKind, bindStmt]
    obtain ⟨inner, last⟩ := List.forall_mem_append.1 h
    split
    · exact (knows_refuse (by simp)).inside
    · exact (knows_bindBranches inner).inside.bind fun _ => (knows_bindElse last).inside.bind fun _ =>
        knows_locate.inside.bind fun _ => knows_ok

variable {D : Decoder} {V : D.View}

mutual

theorem StmtAt.knows {n : D.Node} {s : StmtConfig} : StmtAt V n s → KnowsKinds (bindStmt path s)
  | .read _ _ _ _ inner => knows_bindStmt fun body hm => (inner body hm).knows

theorem BodyIn.knows {n : D.Node} {body : List (Option StmtConfig)} :
    BodyIn V n body → ∀ index, KnowsKinds (bindBody path index body)
  | .empty, _ => by
    rw [bindBody]
    exact knows_ok
  | .written _ elements, index => elements.knows index

theorem BodyAt.knows {ns : List D.Node} {body : List (Option StmtConfig)} :
    BodyAt V ns body → ∀ index, KnowsKinds (bindBody path index body)
  | .nil, _ => by
    rw [bindBody]
    exact knows_ok
  | .none _ _, _ => by
    rw [bindBody]
    exact knows_refuse (by simp)
  | .some first rest, index => by
    rw [bindBody]
    exact first.knows.inside.bind fun _ => (rest.knows (index + 1)).bind fun _ => knows_ok

end

end Bodies

section Stories

variable {path : String} {table : SymbolTable}

theorem knows_bindOutcome {o : OutcomeConfig} : KnowsKinds (bindOutcome o) := by
  unfold bindOutcome
  dsimp only
  split_ifs <;> first | exact knows_ok | exact knows_refuse (by simp)

theorem knows_bindBands {spectrum : String} {below : Float} {names : List String}
    {bands : List (Option BandConfig)} : KnowsKinds (bindBands spectrum below names bands) := by
  induction bands generalizing below names with
  | nil => exact knows_ok
  | cons b rest ih =>
    rw [bindBands]
    refine knows_element.bind fun band => ?_
    split_ifs
    · exact knows_refuse (by simp)
    · exact knows_refuse (by simp)
    · exact ih.bind fun _ => knows_ok

theorem knows_bindSpectrum {s : SpectrumConfig} : KnowsKinds (bindSpectrum s) := by
  unfold bindSpectrum
  split_ifs
  · exact knows_refuse (by simp)
  · exact knows_refuse (by simp)
  · refine knows_bindBands.bind fun bands => ?_
    split_ifs
    · exact knows_refuse (by simp)
    · exact knows_ok

theorem knows_bindOutcomes {list : List (Option OutcomeConfig)} :
    KnowsKinds (bindOutcomes table list) := by
  induction list generalizing table with
  | nil => exact knows_ok
  | cons o rest ih =>
    rw [bindOutcomes]
    exact knows_element.bind fun _ => knows_bindOutcome.bind fun _ => knows_ofSymbols.bind fun _ => ih

theorem knows_bindSpectrums {list : List (Option SpectrumConfig)} :
    KnowsKinds (bindSpectrums table list) := by
  induction list generalizing table with
  | nil => exact knows_ok
  | cons s rest ih =>
    rw [bindSpectrums]
    exact knows_element.bind fun _ => knows_bindSpectrum.bind fun _ => knows_ofSymbols.bind fun _ => ih

theorem knows_bindScenes {index : Nat} {list : List (Option SceneConfig)}
    (h : KnowsBodies path (bodiesOf SceneConfig.body list)) :
    KnowsKinds (bindScenes path index table list) := by
  induction list generalizing table index with
  | nil => exact knows_ok
  | cons s rest ih =>
    obtain ⟨own, others⟩ := List.forall_mem_cons.1 h
    cases s with
    | none => exact knows_refuse (by simp)
    | some s =>
      change KnowsKinds (if s.name.isEmpty then _ else _)
      split_ifs
      · exact knows_refuse (by simp)
      · refine knows_ofSymbols.bind fun _ => knows_locate.inside.bind fun _ => ?_
        exact (own 0).inside.bind fun _ => (ih others).bind fun _ => knows_ok

theorem knows_bind {config : StoryConfig}
    (h : KnowsBodies path (bodiesOf SceneConfig.body config.scenes)) : KnowsKinds (config.bind path) := by
  unfold StoryConfig.bind bindSymbols
  refine (knows_bindOutcomes.bind fun _ => knows_bindSpectrums).bind fun table => ?_
  refine (knows_bindScenes h).bind fun bound => ?_
  obtain ⟨scenes, table⟩ := bound
  dsimp only
  split_ifs
  · exact knows_refuse (by simp)
  · exact knows_ok

section Decoding

variable {D : Decoder}

theorem reads_of_decode {n : D.Node} {config : StoryConfig}
    (h : StoryConfig.decode D (some n) = .ok config) :
    (D.readRecord "storyyaml.StoryConfig" (storyFields D (readStmt D (D.depth n))) {} {} n).Reads
      config := by
  unfold StoryConfig.decode at h
  dsimp only at h
  split at h <;> rename_i hread
  · cases h
  · cases h
  · cases h
    exact hread
  · cases h

/-- A story is read from a document that is there, and without issues. -/
theorem reads_of_parse {text : String} {config : StoryConfig} (h : StoryConfig.parse D text = .ok config) :
    ∃ root, D.parse text = .ok (some root) ∧
      (D.readRecord "storyyaml.StoryConfig" (storyFields D (readStmt D (D.depth root))) {} {} root).Reads
        config := by
  unfold StoryConfig.parse at h
  split at h <;> rename_i root hroot
  · cases h
  · obtain ⟨story, hstory, h⟩ := ok_of_bind_ok h
    split at h <;> rename_i hscenes
    · cases h
    · cases h
      cases root with
      | none =>
        cases hstory
        exact absurd rfl hscenes
      | some n => exact ⟨n, hroot, reads_of_decode hstory⟩

theorem keeps_storyFields {V : D.View} {stmt : StmtReader D} {depth : Nat} {region : D.Node}
    (strict : V.Strict) (hf : Faithful V stmt depth) (hn : D.depth region ≤ depth) :
    ∀ f ∈ storyFields D stmt, V.Keeps region
      (fun r => ∀ body ∈ bodiesOf SceneConfig.body r.scenes, BodyIn V region body) f := by
  simp only [storyFields, List.forall_mem_cons]
  refine ⟨keeps_set fun _ _ _ _ _ hr => hr, keeps_set fun _ _ _ _ _ hr => hr,
    keeps_set fun _ _ _ _ _ hr => hr, keeps_set fun _ _ _ inside hlist _ => ?_,
    keeps_set fun _ _ _ _ _ hr => hr, by simp⟩
  exact bodies_in_records strict inside (keeps_sceneFields strict hf hn) rfl hlist

/-- The statements in the scenes of a story that was read have one kind each, and so the binding knows the
kinds that it meets. -/
theorem one_kind_of_parse {V : D.View} (strict : V.Strict) {text : String} {config : StoryConfig}
    (h : StoryConfig.parse D text = .ok config) :
    ∃ root, D.parse text = .ok (some root) ∧
      (∀ body ∈ bodiesOf SceneConfig.body config.scenes, BodyIn V root body) ∧
      ∀ path, KnowsKinds (config.bind path) := by
  obtain ⟨root, hroot, reads⟩ := reads_of_parse h
  have bodies := strict.record .refl
    (keeps_storyFields strict (faithful_readStmt strict (D.depth root)) (Nat.le_refl _))
    (by simp [bodiesOf]) (by simp [bodiesOf]) reads
  exact ⟨root, hroot, bodies, fun path => knows_bind fun body hm => (bodies body hm).knows⟩

end Decoding

/-- A statement inside an option, behind one that was left out. The position of the statement around it is
merged. -/
def jetty : String :=
  "scenes:\n- name: jetty\n  body:\n  - choose:\n      options:\n      - label: down\n" ++
  "        body: [~, weaken: nerve]\n    <<: [at: '3:5']\n"

theorem one_kind_of_parse_jetty : treeView.Strict ∧ ∃ config root,
    StoryConfig.parse treeDecoder jetty = .ok config ∧ treeDecoder.parse jetty = .ok (some root) ∧
      (bodiesOf SceneConfig.body config.scenes).map List.length = [1] ∧
      (∀ body ∈ bodiesOf SceneConfig.body config.scenes, BodyIn treeView root body) ∧
      KnowsKinds (config.bind "tale") := by
  have read : (StoryConfig.parse treeDecoder jetty).toOption.bind (fun config =>
      some ((bodiesOf SceneConfig.body config.scenes).map List.length)) = some [1] := by decide +kernel
  obtain ⟨config, hconfig, hlength⟩ := ok_of_toOption_bind read
  obtain ⟨root, hroot, bodies, knows⟩ := one_kind_of_parse treeView_strict hconfig
  exact ⟨treeView_strict, config, root, hconfig, hroot, Option.some.inj hlength, bodies, knows "tale"⟩

/-- A statement into which another one is merged. -/
def pier : String := "scenes:\n- name: pier\n  body:\n  - output: hi\n    <<: \x7bcall: foo\x7d\n"

def pierStmt : Document.Node :=
  .mapping 4 [(.scalar 4 "output" true, .scalar 4 "hi" true),
    (.scalar 5 "<<" true, .mapping 5 [(.scalar 5 "call" true, .scalar 5 "foo" true)])]

def pierRoot : Document.Node :=
  .mapping 1 [(.scalar 1 "scenes" true, .sequence 2 [.mapping 2 [
    (.scalar 2 "name" true, .scalar 2 "pier" true), (.scalar 3 "body" true, .sequence 4 [pierStmt])]])]

theorem parse_pier : Document.Node.ofText pier = .ok (some pierRoot) := by decide +kernel

/-- The story is read, and for its one statement two kinds are given. -/
theorem two_kinds_pier : ∃ config r, StoryConfig.parse treeDecoder pier = .ok config ∧
    bodiesOf SceneConfig.body config.scenes = [[some (StmtFields.ofKind r (.text .output))]] ∧
    treeDecoder.parse pier = .ok (some pierRoot) ∧ treeView.Inside pierRoot pierStmt ∧
    (treeDecoder.readRecord "storyyaml.plain" (stmtFields treeDecoder (readStmt treeDecoder 1)) {} {}
      pierStmt).Reads r ∧
    r.holds (.text .output) = true ∧ r.holds (.text .call) = true := by
  have document : treeDecoder.parse pier = .ok (some pierRoot) := parse_pier
  have accepted : StoryConfig.parse treeDecoder pier = StoryConfig.ofRoot treeDecoder (some pierRoot) := by
    rw [StoryConfig.parse, document]
  have inside : treeView.Inside pierRoot pierStmt := by
    refine .head (Or.inr ⟨_, .head _, rfl⟩) (.head (Or.inl (.head _)) ?_)
    exact .head (Or.inr ⟨_, .tail _ (.head _), rfl⟩) (.single (Or.inl (.head _)))
  exact ⟨_, _, accepted.trans rfl, rfl, document, inside, rfl, rfl, rfl⟩

end Stories

end StoryFlow.Config
