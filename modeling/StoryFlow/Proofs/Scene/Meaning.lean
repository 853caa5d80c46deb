import StoryFlow.Proofs.Flow.Passage
import StoryFlow.Proofs.Story.Steps

/-! The graph of a scene has the executions of the scene: what is read along its complete paths is what
the tree says, and control comes to whatever the tree comes to. The identities of a graph lie between the
states of the supply before and after it was built, which keeps the graphs of different statements
apart. -/

namespace StoryFlow

open Computability
open StoryFlow.Flow

namespace Flow.Graph

variable {a b g : Graph} {lo mid hi : Nat}

/-- A graph with identities from a stretch of the supply that, if it is lawful, reads a language and
leads to the given statements. -/
structure Renders (g : Graph) (lo hi : Nat) (lawful : Prop) (l : Language Stmt)
    (begins : List Stmt → Stmt → Prop) : Prop where
  whole : g.Whole
  le : lo ≤ hi
  taken : g.TakenIn lo hi
  words : lawful → g.words = l
  passes : lawful → ∀ u t, begins u t → g.Passes u t

variable {p q : Prop} {l m : Language Stmt} {β γ : List Stmt → Stmt → Prop}

theorem Renders.imp (h : g.Renders lo hi p l β) (hp : q → p) (hl : l = m)
    (hb : ∀ u t, γ u t → β u t) : g.Renders lo hi q m γ :=
  ⟨h.whole, h.le, h.taken, fun hq => hl ▸ h.words (hp hq),
    fun hq u t ht => h.passes (hp hq) u t (hb u t ht)⟩

theorem renders_empty (n : Nat) : empty.Renders n n True 1 fun _ _ => False :=
  ⟨whole_empty, le_rfl, fun _ hid => (by cases hid), fun _ => words_of_isEmpty isEmpty_empty,
    fun _ _ _ hf => hf.elim⟩

/-- Control is still in the first part, or in the second one after an execution of the first. -/
def Onward (l : Language Stmt) (first second : List Stmt → Stmt → Prop) (u : List Stmt) (t : Stmt) :
    Prop :=
  first u t ∨ ∃ x y, u = x ++ y ∧ x ∈ l ∧ second y t

theorem Renders.append {r : Graph} {lo' hi' n k operation : Nat} (hg : g.Renders lo hi p l β)
    (hb : b.Renders lo' hi' q m γ) (apart : g.Apart b) (hlo : n ≤ lo ∧ n ≤ lo')
    (hhi : hi ≤ k ∧ hi' ≤ k) (h : g.append operation b = .ok r) :
    r.Renders n k (p ∧ q) (l * m) (Onward l β γ) where
  whole := .append h hg.whole hb.whole apart
  le := hlo.1.trans (hg.le.trans hhi.1)
  taken := .append h hg.whole.wf hg.taken hb.taken hlo hhi
  words := by
    intro hpq
    rw [words_append h hg.whole hb.whole apart, hg.words hpq.1, hb.words hpq.2]
  passes := by
    rintro hpq u t (ht | ⟨x, y, rfl, hx, ht⟩)
    · exact (hg.passes hpq.1 u t ht).append_left h hg.whole.wf apart
    · rw [← hg.words hpq.1] at hx
      exact (hb.passes hpq.2 y t ht).append_right h hg.whole.wf apart hx

end Flow.Graph

open Flow.Graph

theorem perform_ok {s s' : Supply} {operation : Nat → Except Fault Graph} {g : Graph}
    (h : s.perform operation = .ok (g, s')) :
    operation s.operations = .ok g ∧ s'.identities = s.identities := by
  obtain ⟨r, hr, heq⟩ := ok_of_bind_ok h
  cases heq
  exact ⟨hr, rfl⟩

theorem ofFault_ok {α : Type} {x : Except Fault α} {a : α} (h : Defect.ofFault x = .ok a) :
    x = .ok a := by
  cases x with
  | error f => cases h
  | ok b => cases h; rfl

namespace Scene

variable {table : SymbolTable} {scene : String}

def Rendered (table : SymbolTable) (scene : String) (x : Stmt) : Prop :=
  ∀ s g s', x.graph table scene s = .ok (g, s') →
    g.Renders s.identities s'.identities (x.problems table scene = []) (x.executions table)
      (Begins table [x])

theorem bodyGraph_renders {body : List Stmt} {g g' : Graph} {s s' : Supply} {lo : Nat}
    {p : Prop} {l : Language Stmt} {β : List Stmt → Stmt → Prop}
    (hb : ∀ x ∈ body, Rendered table scene x) (hg : g.Renders lo s.identities p l β)
    (h : bodyGraph table scene g s body = .ok (g', s')) :
    g'.Renders lo s'.identities (p ∧ bodyProblems table scene body = [])
      (l * bodyExecutions table body) (Onward l β (Begins table body)) := by
  induction body generalizing g s l p β with
  | nil =>
    rw [bodyGraph] at h
    cases h
    refine hg.imp And.left (by rw [bodyExecutions, mul_one]) ?_
    rintro u t (ht | ⟨_, _, -, -, ht⟩)
    · exact ht
    · cases ht
  | cons x rest ih =>
    rw [bodyGraph] at h
    obtain ⟨⟨b, s₁⟩, hx, h₁⟩ := ok_of_bind_ok h
    obtain ⟨⟨g₁, s₂⟩, ha, h₂⟩ := ok_of_bind_ok h₁
    obtain ⟨ha, hs⟩ := perform_ok ha
    have hr := hb x List.mem_cons_self s b s₁ hx
    have first := hg.append hr (hg.taken.apart hr.taken) ⟨le_rfl, hg.le⟩ ⟨hr.le, le_rfl⟩ ha
    rw [← hs] at first
    refine (ih (fun y hy => hb y (List.mem_cons_of_mem _ hy)) first h₂).imp ?_ ?_ ?_
    · rw [bodyProblems, List.append_eq_nil_iff]
      exact fun hp => ⟨⟨hp.1, hp.2.1⟩, hp.2.2⟩
    · rw [bodyExecutions, mul_assoc]
    · rintro u t (ht | ⟨v, y, rfl, hv, ht⟩)
      · exact Or.inl (Or.inl ht)
      · rcases ht.of_cons with ht | ⟨z, y, rfl, hz, ht⟩
        · exact Or.inl (Or.inr ⟨v, y, rfl, hv, ht⟩)
        · exact Or.inr ⟨v ++ z, y, by simp, Language.append_mem_mul hv hz, ht⟩

theorem body_renders {body : List Stmt} {g : Graph} {s s' : Supply}
    (hb : ∀ x ∈ body, Rendered table scene x)
    (h : bodyGraph table scene .empty s body = .ok (g, s')) :
    g.Renders s.identities s'.identities (bodyProblems table scene body = [])
      (bodyExecutions table body) (Begins table body) :=
  (bodyGraph_renders hb (renders_empty _) h).imp (fun hp => ⟨trivial, hp⟩) (one_mul _)
    fun u _ ht => Or.inr ⟨[], u, rfl, rfl, ht⟩

theorem single_hub {operation n : Nat} {v : Vertex} {es : List Edge} {g : Graph}
    (h : Graph.single operation v es = .ok g) (hv : v.id = n) (he : ∀ e ∈ es, e.target = sink) :
    g.Hub n v ∧ g.TakenIn n (n + 1) ∧ (g.around n).wordsTo n = 0 ∧
      (g.around n).wordsTo sink = onlyIf (es ≠ []) 1 := by
  obtain ⟨hst, hn, hw⟩ := single_ok h
  rw [hv] at hst hn
  have hnode : g.node? n = some (v, es) := by rw [hn, if_pos rfl]
  have hs : (g.around n).start = es := edgesOf_of_node? hnode
  have ha : ∀ id, (g.around n).node? id = none := by
    intro id
    rw [node?_around, hn]
    split <;> rfl
  have words : ∀ t w, w ∈ (g.around n).wordsTo t ↔ (∃ e ∈ es, e.target = t) ∧ w = [] := by
    intro t w
    simp only [mem_wordsTo, Reaches, hs]
    constructor
    · rintro ⟨vs, hl, hr⟩
      cases vs with
      | nil => exact ⟨hl, reads_nil.1 hr⟩
      | cons x vs =>
        obtain ⟨e, _, next, hx, _⟩ := hl
        rw [ha] at hx
        cases hx
    · rintro ⟨hl, rfl⟩
      exact ⟨[], hl, reads_nil.2 rfl⟩
  refine ⟨⟨hw, hst, by rw [hnode, hs], ?_, ?_⟩, ?_, ?_, ?_⟩
  · rw [hs]; exact fun e hm => Or.inr (Or.inl (he e hm))
  · intro id x ds hx; rw [ha] at hx; cases hx
  · intro id hid
    obtain ⟨x, hx⟩ := has_iff.1 hid
    rw [hn] at hx
    split at hx <;> rename_i heq
    · rw [heq]; exact ⟨Int.le_refl _, Int.ofNat_lt.2 (Nat.lt_succ_self n)⟩
    · cases hx
  · ext w
    rw [words]
    refine iff_of_false ?_ (Language.notMem_zero w)
    rintro ⟨⟨e, hm, ht⟩, -⟩
    rw [he e hm] at ht
    exact absurd (hw.real _ _ hnode) (by rw [← ht]; decide)
  · ext w
    rw [words, mem_onlyIf, Language.mem_one]
    refine and_congr_left' ⟨?_, ?_⟩
    · rintro ⟨e, hm, -⟩; exact List.ne_nil_of_mem hm
    · intro hne
      obtain ⟨e, hm⟩ := List.exists_mem_of_ne_nil es hne
      exact ⟨e, hm, he e hm⟩

theorem plain_rendered (area : TextArea) (action : Action) :
    Rendered table scene (.plain area action) := by
  intro s g s' h
  rw [Stmt.graph] at h
  obtain ⟨h, hs⟩ := perform_ok h
  obtain ⟨hub, taken, back, out⟩ := single_hub h rfl (by simp [Edge.toSink])
  have hs : s'.identities = s.identities + 1 := hs
  refine ⟨hub.whole, by omega, hs ▸ taken, fun _ => ?_, fun _ u t ht => ?_⟩
  · rw [hub.words rfl, back, out, Stmt.executions, onlyIf_pos (List.cons_ne_nil _ _), zero_mul,
      kstar_zero, one_mul, mul_one]
  · cases ht with
    | here => exact hub.passes_here rfl
    | next _ ht => cases ht

theorem attach_hub {g b r : Graph} {v : Vertex} {n lo hi operation : Nat} (hub : g.Hub n v)
    (hg : g.TakenIn n lo) (hw : b.WellFormed) (hc : b.Closed fun id => id = sink ∨ id = n)
    (hb : b.TakenIn lo hi) (hl : lo ≤ hi) (h : g.attach operation n b = .ok r) :
    r.Hub n v ∧ r.TakenIn n hi ∧
      (∀ t, (r.around n).wordsTo t = (g.around n).wordsTo t + b.wordsTo t) ∧
      ∀ u t, (g.around n).Passes u t ∨ b.Passes u t → (r.around n).Passes u t := by
  have agree := (hg.apart hb).agree_around n
  have hn : n ≤ lo := Int.ofNat_le.1 (Int.le_of_lt (hg n (has_iff.2 ⟨_, hub.node⟩)).2)
  obtain ⟨hub', has, -, reaches⟩ := hub.attach hw hc agree h
  refine ⟨hub', fun id hid => ?_, fun t => wordsTo_of_reaches_or fun vs => reaches vs t,
    fun u t => hub.passes_attach hw hc agree h⟩
  rw [has, Bool.or_eq_true] at hid
  rcases hid with hid | hid
  · exact hg.mono le_rfl hl id hid
  · exact hb.mono hn le_rfl id hid

/-- What an option contributes to its prompt: ways back to it, or ways out. -/
theorem option_hub {kind : MenuKind} {loop : Bool} {g b r : Graph} {v : Vertex}
    {n lo hi op₁ op₂ : Nat} {p : Prop} {l : Language Stmt} {β : List Stmt → Stmt → Prop}
    (hub : g.Hub n v) (hg : g.TakenIn n lo) (hb : b.Renders lo hi p l β)
    (h : g.attach op₂ n (if loop && kind == .loopSwitch then b.loopTo op₁ n else b) = .ok r) :
    r.Hub n v ∧ r.TakenIn n hi ∧ (p →
      (r.around n).wordsTo n = (g.around n).wordsTo n + onlyIf (Returns kind loop) l ∧
      (r.around n).wordsTo sink =
        (g.around n).wordsTo sink + onlyIf (¬Returns kind loop) l ∧
      ∀ u t, (g.around n).Passes u t ∨ β u t → (r.around n).Passes u t) := by
  have away : b.has n = false := (hg.apart hb.taken) n (has_iff.2 ⟨_, hub.node⟩)
  split at h <;> rename_i hk
  · have hret : Returns kind loop := by simpa [Returns] using hk
    have taken : (b.loopTo op₁ n).TakenIn lo hi := by
      intro id hid
      rw [has_loopTo hb.whole.wf] at hid
      exact hb.taken id hid
    have closed : (b.loopTo op₁ n).Closed (· = (n : Int)) := .loopTo hb.whole
    obtain ⟨hub', taken', words, passes⟩ := attach_hub hub hg hb.whole.wf.loopTo
      (closed.mono fun _ => Or.inr) taken hb.le h
    refine ⟨hub', taken', fun hp => ⟨?_, ?_, fun u t ht => passes u t (ht.imp_right ?_)⟩⟩
    · rw [words, wordsTo_loopTo hb.whole away, hb.words hp, onlyIf_pos hret]
    · rw [words, onlyIf_neg (not_not.2 hret)]
      exact congrArg _ (words_loopTo hb.whole away (natCast_ne_sink n))
    · exact fun ht => (hb.passes hp u t ht).loopTo hb.whole.wf _ _
  · have hret : ¬Returns kind loop := by simpa [Returns] using hk
    obtain ⟨hub', taken', words, passes⟩ := attach_hub hub hg hb.whole.wf
      (hb.whole.closed.mono fun _ => Or.inl) hb.taken hb.le h
    refine ⟨hub', taken', fun hp => ⟨?_, ?_, fun u t ht => passes u t (ht.imp_right ?_)⟩⟩
    · rw [words, wordsTo_eq_zero hb.whole away (natCast_ne_sink n), onlyIf_neg hret]
    · rw [words, onlyIf_pos hret, ← hb.words hp]
      rfl
    · exact hb.passes hp u t

theorem optionGraphs_hub {kind : MenuKind} {options : List MenuOption} {g g' : Graph} {v : Vertex}
    {s s' : Supply} {n : Nat} (hb : ∀ o ∈ options, ∀ x ∈ o.body, Rendered table scene x)
    (hub : g.Hub n v) (hg : g.TakenIn n s.identities)
    (h : optionGraphs table scene kind n g s options = .ok (g', s')) :
    s.identities ≤ s'.identities ∧ g'.Hub n v ∧ g'.TakenIn n s'.identities ∧
      ∀ area, optionProblems table scene area kind options = [] →
        (g'.around n).wordsTo n =
          (g.around n).wordsTo n + optionExecutions table (Returns kind) options ∧
        (g'.around n).wordsTo sink =
          (g.around n).wordsTo sink + optionExecutions table (fun b => ¬Returns kind b) options ∧
        ∀ u t, ((g.around n).Passes u t ∨ ∃ o ∈ options, Begins table o.body u t) →
          (g'.around n).Passes u t := by
  induction options generalizing g s with
  | nil =>
    rw [optionGraphs] at h
    cases h
    refine ⟨le_rfl, hub, hg, fun _ _ => ⟨?_, ?_, fun u t ht => ?_⟩⟩
    · rw [optionExecutions, add_zero]
    · rw [optionExecutions, add_zero]
    · simpa using ht
  | cons o rest ih =>
    obtain ⟨area', label, loop, body⟩ := o
    rw [optionGraphs] at h
    obtain ⟨⟨b, s₁⟩, hbody, h₁⟩ := ok_of_bind_ok h
    obtain ⟨⟨c, s₂⟩, hloop, h₂⟩ := ok_of_bind_ok h₁
    obtain ⟨⟨g₁, s₃⟩, hattach, h₃⟩ := ok_of_bind_ok h₂
    obtain ⟨hloop, hs₂⟩ := perform_ok hloop
    obtain ⟨hattach, hs₃⟩ := perform_ok hattach
    cases hloop
    have hr := body_renders (hb _ List.mem_cons_self) hbody
    obtain ⟨hub₁, taken₁, words₁⟩ := option_hub hub hg hr hattach
    have hs : s₃.identities = s₁.identities := hs₃.trans hs₂
    obtain ⟨le, hub', taken, words⟩ := ih (fun o ho => hb o (List.mem_cons_of_mem _ ho))
      hub₁ (hs ▸ taken₁) h₃
    refine ⟨hr.le.trans (hs ▸ le), hub', taken, fun area hp => ?_⟩
    simp only [optionProblems, List.append_eq_nil_iff] at hp
    obtain ⟨back₁, out₁, passes₁⟩ := words₁ hp.1.1.2
    obtain ⟨back, out, passes⟩ := words area hp.2
    refine ⟨?_, ?_, fun u t ht => passes u t ?_⟩
    · rw [back, back₁, optionExecutions, add_assoc]
    · rw [out, out₁, optionExecutions, add_assoc]
    · rw [List.exists_mem_cons_iff, ← or_assoc] at ht
      exact ht.imp_left (passes₁ u t)

theorem optionExecutions_eq_zero {chosen : Bool → Prop} (h : ∀ b, ¬chosen b)
    (options : List MenuOption) : optionExecutions table chosen options = 0 := by
  induction options with
  | nil => rfl
  | cons o rest ih =>
    obtain ⟨area, label, loop, body⟩ := o
    rw [optionExecutions, onlyIf_neg (h _), ih, add_zero]

theorem menu_lawful {area : TextArea} {kind : MenuKind} {prompt : String}
    {options : List MenuOption}
    (hp : (Stmt.menu area kind prompt options).problems table scene = []) :
    ¬options.isEmpty = true ∧ optionProblems table scene area kind options = [] := by
  rw [Stmt.problems] at hp
  split at hp <;> rename_i hne
  · cases hp
  · exact ⟨hne, (List.append_eq_nil_iff.1 hp).1⟩

theorem menu_rendered (area : TextArea) (kind : MenuKind) (prompt : String)
    (options : List MenuOption) (hb : ∀ o ∈ options, ∀ x ∈ o.body, Rendered table scene x) :
    Rendered table scene (.menu area kind prompt options) := by
  intro s g s' h
  rw [Stmt.graph] at h
  obtain ⟨⟨g₀, s₁⟩, hsingle, h⟩ := ok_of_bind_ok h
  obtain ⟨hsingle, hs⟩ := perform_ok hsingle
  have hs : s₁.identities = s.identities + 1 := hs
  obtain ⟨hub₀, taken₀, back₀, out₀⟩ := single_hub hsingle rfl (by
    intro e he
    split at he
    · rw [List.mem_singleton.1 he]; rfl
    · cases he)
  obtain ⟨le, hub, taken, words⟩ := optionGraphs_hub hb hub₀ (hs ▸ taken₀) h
  refine ⟨hub.whole, by omega, taken, fun hp => ?_, fun hp u t ht => ?_⟩
  · obtain ⟨hne, hp⟩ := menu_lawful hp
    rw [if_neg hne, onlyIf_neg (not_not.2 rfl)] at out₀
    obtain ⟨back, out, -⟩ := words area hp
    rw [hub.words rfl, back, out, back₀, out₀, zero_add, zero_add, Stmt.executions]
    split <;> rename_i hk
    · have hret : Returns kind = (· = true) := by
        funext b; simp [Returns, hk]
      have hout : (fun b => ¬Returns kind b) = (· = false) := by
        funext b; simp [Returns, hk]
      rw [hout, hret]
    · have hout : (fun b => ¬Returns kind b) = fun _ => True := by
        funext b; simp [Returns, hk]
      rw [optionExecutions_eq_zero (fun b hb => hk hb.2), hout, zero_mul, kstar_zero, one_mul]
  · obtain ⟨back, -, passes⟩ := words area (menu_lawful hp).2
    generalize hbody : [Stmt.menu area kind prompt options] = body at ht
    induction ht with
    | here =>
      cases hbody
      exact hub.passes_here rfl
    | next _ ht =>
      cases hbody
      cases ht
    | option ho ht =>
      cases hbody
      exact hub.passes_around rfl (passes _ _ (Or.inr ⟨_, ho, ht⟩))
    | again ho hr hv _ ih =>
      cases hbody
      refine hub.passes_again rfl ?_ (ih rfl)
      rw [back]
      exact Or.inr (mem_optionExecutions.2 ⟨_, ho, hr, hv⟩)
    | case => cases hbody
    | branch => cases hbody
    | otherwise => cases hbody

section Owner

variable {area : TextArea} {name : String}

theorem nodup_of_optionNameProblems {declared named options : List String}
    (h : optionNameProblems scene area name declared named options = []) :
    options.Nodup ∧ ∀ o ∈ options, o ∉ named := by
  induction options generalizing named with
  | nil => simp
  | cons option rest ih =>
    unfold optionNameProblems at h
    split at h
    · cases h
    · split at h <;> rename_i hn
      · cases h
      · obtain ⟨nodup, fresh⟩ := ih h
        have hnew : option ∉ named := by simpa using hn
        refine ⟨List.nodup_cons.2 ⟨fun hm => fresh option hm List.mem_cons_self, nodup⟩, ?_⟩
        refine List.forall_mem_cons.2 ⟨hnew, fun o ho hm => fresh o ho ?_⟩
        exact List.mem_cons_of_mem _ hm

theorem names_pairwise_of_nodup {cases : List BranchCase} (h : (writtenOptions cases).Nodup)
    (option : String) : cases.Pairwise fun c d => ¬(c.Names option ∧ d.Names option) := by
  rw [writtenOptions, List.nodup_flatMap, List.pairwise_filter] at h
  refine h.2.imp fun {c d} hcd hboth => ?_
  exact hcd (by simp [hboth.1.1]) (by simp [hboth.2.1]) hboth.1.2 hboth.2.2

theorem other_pairwise_of_caseProblems {cases : List BranchCase} {seen : Bool}
    (h : caseProblems scene area name seen cases = []) :
    (cases.Pairwise fun c d => ¬(c.other = true ∧ d.other = true)) ∧
      (seen = true → ∀ c ∈ cases, c.other = false) := by
  induction cases generalizing seen with
  | nil => simp
  | cons c rest ih =>
    simp only [caseProblems, List.append_eq_nil_iff] at h
    obtain ⟨pairwise, none⟩ := ih h.2
    have first : seen = true → c.other = false := by
      intro hs
      by_contra hc
      rw [Bool.not_eq_false] at hc
      have := h.1.2
      simp [hc, hs, otherProblems] at this
    constructor
    · refine List.pairwise_cons.2 ⟨fun d hd hboth => ?_, pairwise⟩
      have := none (by simp [hboth.1]) d hd
      rw [hboth.2] at this
      cases this
    · intro hs
      exact List.forall_mem_cons.2 ⟨first hs, none (by simp [hs])⟩

theorem find?_eq_some_of_pairwise {α : Type} {p : α → Bool} {l : List α} {x : α}
    (h : l.Pairwise fun a b => ¬(p a = true ∧ p b = true)) (hx : x ∈ l) (hp : p x = true) :
    l.find? p = some x := by
  induction l with
  | nil => cases hx
  | cons y rest ih =>
    obtain ⟨first, tail⟩ := List.pairwise_cons.1 h
    rcases List.mem_cons.1 hx with rfl | hx
    · rw [List.find?_cons_of_pos hp]
    · have hy : ¬p y = true := fun hy => first x hx ⟨hy, hp⟩
      rw [List.find?_cons_of_neg hy, ih tail hx]

/-- Under the rules, the first case that names an option is the only one, and so is the catch-all. -/
theorem owner?_eq_some_iff {α : Type} {cases : List BranchCase} {bodies : List α} {option : String}
    {b : α} (hl : cases.length = bodies.length)
    (hn : cases.Pairwise fun c d => ¬(c.Names option ∧ d.Names option))
    (ho : cases.Pairwise fun c d => ¬(c.other = true ∧ d.other = true)) :
    owner? (cases.zip bodies) option = some b ↔
      ∃ c, (c, b) ∈ cases.zip bodies ∧ BranchCase.Owns cases c option := by
  have fst : (cases.zip bodies).map Prod.fst = cases := List.map_fst_zip hl.le
  have named : ∀ c : BranchCase, (!c.other && c.optionNames.contains option) = true ↔
      c.Names option := by simp [BranchCase.Names]
  have hn' : (cases.zip bodies).Pairwise fun p q =>
      ¬((!p.1.other && p.1.optionNames.contains option) = true ∧
        (!q.1.other && q.1.optionNames.contains option) = true) := by
    simp only [named]
    rw [← fst, List.pairwise_map] at hn
    exact hn
  have ho' : (cases.zip bodies).Pairwise fun p q => ¬(p.1.other = true ∧ q.1.other = true) := by
    rw [← fst, List.pairwise_map] at ho
    exact ho
  rw [owner?, Option.map_eq_some_iff]
  constructor
  · rintro ⟨⟨c, b'⟩, hfind, rfl⟩
    rcases hfirst : (cases.zip bodies).find? fun p =>
        !p.1.other && p.1.optionNames.contains option with - | q
    · rw [hfirst] at hfind
      have hc : c.other = true := by simpa using List.find?_some hfind
      refine ⟨c, List.mem_of_find?_eq_some hfind, Or.inr ⟨hc, fun d hd hdn => ?_⟩⟩
      rw [← fst, List.mem_map] at hd
      obtain ⟨q, hq, rfl⟩ := hd
      exact List.find?_eq_none.1 hfirst q hq ((named _).2 hdn)
    · rw [hfirst] at hfind
      cases hfind
      have hc := List.find?_some hfirst
      exact ⟨c, List.mem_of_find?_eq_some hfirst, Or.inl ((named c).1 hc)⟩
  · rintro ⟨c, hm, hc | ⟨hc, hnone⟩⟩
    · refine ⟨(c, b), ?_, rfl⟩
      rw [find?_eq_some_of_pairwise hn' hm ((named c).2 hc)]
      rfl
    · refine ⟨(c, b), ?_, rfl⟩
      have hfirst : ((cases.zip bodies).find? fun p =>
          !p.1.other && p.1.optionNames.contains option) = none := by
        refine List.find?_eq_none.2 fun q hq hqn => hnone q.1 ?_ ((named _).1 hqn)
        exact (List.of_mem_zip hq).1
      rw [hfirst]
      exact find?_eq_some_of_pairwise ho' hm hc

theorem mem_branchTargets {cases : List BranchCase} {bodies : List Graph} {b : Graph}
    (hl : cases.length = bodies.length) (hc : caseProblems scene area name false cases = [])
    (hb : branchProblems table scene area name cases = []) :
    b ∈ branchTargets table name cases bodies ↔
      ∃ c, (c, b) ∈ cases.zip bodies ∧ BranchCase.Entered table name cases c := by
  unfold branchTargets BranchCase.Entered
  unfold branchProblems at hb
  cases hd : table.declared? name with
  | none =>
    have snd : (cases.zip bodies).map Prod.snd = bodies := List.map_snd_zip hl.ge
    have hm : b ∈ bodies ↔ b ∈ (cases.zip bodies).map Prod.snd := by rw [snd]
    simp only [hm, and_true, List.mem_map, Prod.exists, exists_eq_right]
  | some x =>
    simp only [hd, List.append_eq_nil_iff] at hb
    have nodup := (nodup_of_optionNameProblems hb.1).1
    have other := (other_pairwise_of_caseProblems hc).1
    simp only [List.mem_filterMap]
    constructor
    · rintro ⟨option, hx, howner⟩
      obtain ⟨c, hm, hc⟩ :=
        (owner?_eq_some_iff hl (names_pairwise_of_nodup nodup option) other).1 howner
      exact ⟨c, hm, option, hx, hc⟩
    · rintro ⟨c, hm, option, hx, hc⟩
      exact ⟨option, hx,
        (owner?_eq_some_iff hl (names_pairwise_of_nodup nodup option) other).2 ⟨c, hm, hc⟩⟩

end Owner

section Bodies

def bodyGraphs (table : SymbolTable) (scene : String) (s : Supply) :
    List (List Stmt) → Except Fault (List Graph × Supply)
  | [] => .ok ([], s)
  | body :: rest => do
    let (b, s) ← bodyGraph table scene .empty s body
    let (others, s) ← bodyGraphs table scene s rest
    return (b :: others, s)

theorem caseGraphs_eq (s : Supply) (cases : List BranchCase) :
    caseGraphs table scene s cases = bodyGraphs table scene s (cases.map BranchCase.body) := by
  induction cases generalizing s with
  | nil => rw [caseGraphs]; rfl
  | cons c rest ih =>
    obtain ⟨area, options, other, body⟩ := c
    rw [caseGraphs, List.map_cons, bodyGraphs]
    simp only [ih]

theorem branchGraphs_eq (s : Supply) (branches : List IfBranch) :
    branchGraphs table scene s branches = bodyGraphs table scene s (branches.map IfBranch.body) := by
  induction branches generalizing s with
  | nil => rw [branchGraphs]; rfl
  | cons c rest ih =>
    obtain ⟨condition, body⟩ := c
    rw [branchGraphs, List.map_cons, bodyGraphs]
    simp only [ih]

theorem bodyGraphs_render {bodies : List (List Stmt)} {bs : List Graph} {s s' : Supply}
    (hb : ∀ body ∈ bodies, ∀ x ∈ body, Rendered table scene x)
    (h : bodyGraphs table scene s bodies = .ok (bs, s')) :
    s.identities ≤ s'.identities ∧ bs.Pairwise Apart ∧
      (∀ b ∈ bs, b.Whole ∧ b.TakenIn s.identities s'.identities) ∧
      List.Forall₂ (fun body b => bodyProblems table scene body = [] →
        b.words = bodyExecutions table body ∧ ∀ u t, Begins table body u t → b.Passes u t)
        bodies bs := by
  induction bodies generalizing s bs with
  | nil => cases h; simp
  | cons body rest ih =>
    rw [bodyGraphs] at h
    obtain ⟨⟨b, s₁⟩, hbody, h₁⟩ := ok_of_bind_ok h
    obtain ⟨⟨others, s₂⟩, hrest, h₂⟩ := ok_of_bind_ok h₁
    cases h₂
    have hr := body_renders (hb body List.mem_cons_self) hbody
    obtain ⟨le, apart, each, words⟩ := ih (fun x hx => hb x (List.mem_cons_of_mem _ hx)) hrest
    refine ⟨hr.le.trans le, ?_, ?_, .cons (fun hp => ⟨hr.words hp, hr.passes hp⟩) words⟩
    · exact List.pairwise_cons.2 ⟨fun c hc => hr.taken.apart (each c hc).2, apart⟩
    · refine List.forall_mem_cons.2 ⟨⟨hr.whole, hr.taken.mono le_rfl le⟩, fun c hc => ?_⟩
      exact ⟨(each c hc).1, (each c hc).2.mono hr.le le_rfl⟩

theorem agree_of_pairwise_apart {bs : List Graph} (h : bs.Pairwise Apart) :
    ∀ b ∈ bs, ∀ c ∈ bs, b.Agree c := by
  intro b hb c hc
  refine List.Pairwise.forall_of_forall_of_flip ?_ (h.imp fun hab => hab.agree)
    (h.imp fun hab => hab.symm.agree) hb hc
  intro d _ id x y hx hy
  exact Option.some.inj (hx.symm.trans hy)

theorem attachAll_hub {bs : List Graph} {g g' : Graph} {v : Vertex} {s s' : Supply} {n hi : Nat}
    (hub : g.Hub n v) (hg : g.TakenIn n hi) (hb : ∀ b ∈ bs, b.Whole ∧ b.TakenIn (n + 1) hi)
    (hag : ∀ b ∈ bs, (g.around n).Agree b) (hbs : ∀ b ∈ bs, ∀ c ∈ bs, b.Agree c)
    (h : attachAll n g s bs = .ok (g', s')) :
    s'.identities = s.identities ∧ g'.Hub n v ∧ g'.TakenIn n hi ∧
      (∀ t w, w ∈ (g'.around n).wordsTo t ↔
        w ∈ (g.around n).wordsTo t ∨ ∃ b ∈ bs, w ∈ b.wordsTo t) ∧
      ∀ u t, (g.around n).Passes u t ∨ (∃ b ∈ bs, b.Passes u t) → (g'.around n).Passes u t := by
  induction bs generalizing g s with
  | nil =>
    cases h
    exact ⟨rfl, hub, hg, by simp, by simp⟩
  | cons b rest ih =>
    rw [attachAll] at h
    obtain ⟨⟨g₁, s₁⟩, hattach, h⟩ := ok_of_bind_ok h
    obtain ⟨hattach, hs⟩ := perform_ok hattach
    obtain ⟨hw, ht⟩ := hb b List.mem_cons_self
    have closed := hw.closed.mono fun (id : VertexId) hid => (Or.inl hid : id = sink ∨ id = (n : Int))
    obtain ⟨hub₁, has, node, reaches⟩ :=
      hub.attach hw.wf closed (hag b List.mem_cons_self) hattach
    have taken : g₁.TakenIn n hi := by
      intro id hid
      rw [has, Bool.or_eq_true] at hid
      rcases hid with hid | hid
      · exact hg id hid
      · exact ht.mono (Nat.le_succ n) le_rfl id hid
    have agree : ∀ c ∈ rest, (g₁.around n).Agree c := by
      intro c hc id x y hx hy
      rw [node, Option.or_eq_some_iff] at hx
      rcases hx with hx | ⟨_, hx⟩
      · exact hbs b List.mem_cons_self c (List.mem_cons_of_mem _ hc) id x y hx hy
      · exact hag c (List.mem_cons_of_mem _ hc) id x y hx hy
    obtain ⟨hs', hub', taken', words, passes⟩ := ih hub₁ taken
      (fun c hc => hb c (List.mem_cons_of_mem _ hc)) agree
      (fun c hc d hd => hbs c (List.mem_cons_of_mem _ hc) d (List.mem_cons_of_mem _ hd)) h
    refine ⟨hs'.trans hs, hub', taken', fun t w => ?_, fun u t ht => passes u t ?_⟩
    · rw [words, wordsTo_of_reaches_or fun vs => reaches vs t, Language.mem_add, or_assoc]
      simp
    · rw [List.exists_mem_cons_iff, ← or_assoc] at ht
      exact ht.imp_left (hub.passes_attach hw.wf closed (hag b List.mem_cons_self) hattach)

end Bodies

theorem caseBodyProblems_eq_nil {cases : List BranchCase}
    (h : caseBodyProblems table scene cases = []) :
    ∀ c ∈ cases, bodyProblems table scene c.body = [] := by
  induction cases with
  | nil => simp
  | cons c rest ih =>
    obtain ⟨area, options, other, body⟩ := c
    rw [caseBodyProblems, List.append_eq_nil_iff] at h
    exact List.forall_mem_cons.2 ⟨h.1, ih h.2⟩

theorem branchBodyProblems_eq_nil {branches : List IfBranch}
    (h : branchBodyProblems table scene branches = []) :
    ∀ b ∈ branches, bodyProblems table scene b.body = [] := by
  induction branches with
  | nil => simp
  | cons c rest ih =>
    obtain ⟨condition, body⟩ := c
    rw [branchBodyProblems, List.append_eq_nil_iff] at h
    exact List.forall_mem_cons.2 ⟨h.1, ih h.2⟩

theorem mem_of_mem_branchTargets {cases : List BranchCase} {bodies : List Graph} {name : String}
    {b : Graph} (h : b ∈ branchTargets table name cases bodies) : b ∈ bodies := by
  unfold branchTargets at h
  split at h
  · exact h
  · obtain ⟨option, _, howner⟩ := List.mem_filterMap.1 h
    obtain ⟨⟨c, b'⟩, hfind, rfl⟩ := Option.map_eq_some_iff.1 howner
    rcases Option.or_eq_some_iff.1 (Option.orElse_eq_or ▸ hfind) with hfind | ⟨_, hfind⟩
    · exact (List.of_mem_zip (List.mem_of_find?_eq_some hfind)).2
    · exact (List.of_mem_zip (List.mem_of_find?_eq_some hfind)).2

/-- The graphs of the bodies of lawful cases: those that are entered are the targets of the branch, and
each does what its body does. -/
theorem branchOn_lawful {area : TextArea} {name : String} {cases : List BranchCase}
    {bs : List Graph} (hl : cases.length = bs.length)
    (hbs : ∀ {c b}, (c, b) ∈ cases.zip bs → bodyProblems table scene c.body = [] →
      b.words = bodyExecutions table c.body ∧ ∀ u t, Begins table c.body u t → b.Passes u t)
    (hp : (Stmt.branchOn area name cases).problems table scene = []) :
    (∀ b, b ∈ branchTargets table name cases bs ↔
        ∃ c, (c, b) ∈ cases.zip bs ∧ BranchCase.Entered table name cases c) ∧
      ∀ c b, (c, b) ∈ cases.zip bs → b.words = bodyExecutions table c.body ∧
        ∀ u t, Begins table c.body u t → b.Passes u t := by
  rw [Stmt.problems] at hp
  simp only [List.append_eq_nil_iff] at hp
  obtain ⟨⟨hcases, hbodies⟩, hbranch⟩ := hp
  refine ⟨fun b => mem_branchTargets hl hcases hbranch, fun c b hz => hbs hz ?_⟩
  exact caseBodyProblems_eq_nil hbodies c (List.of_mem_zip hz).1

theorem branchOn_rendered (area : TextArea) (name : String) (cases : List BranchCase)
    (hb : ∀ c ∈ cases, ∀ x ∈ c.body, Rendered table scene x) :
    Rendered table scene (.branchOn area name cases) := by
  intro s g s' h
  rw [Stmt.graph] at h
  obtain ⟨⟨g₀, s₁⟩, hsingle, h₁⟩ := ok_of_bind_ok h
  obtain ⟨⟨bs, s₂⟩, hbs, h₂⟩ := ok_of_bind_ok h₁
  obtain ⟨hsingle, hs⟩ := perform_ok hsingle
  obtain ⟨hub₀, taken₀, back₀, out₀⟩ := single_hub hsingle rfl (by simp)
  have hs : s₁.identities = s.identities + 1 := hs
  rw [caseGraphs_eq] at hbs
  obtain ⟨le, apart, each, words⟩ := bodyGraphs_render (by simpa using hb) hbs
  rw [hs] at each le
  have hin : ∀ b ∈ branchTargets table name cases bs, b ∈ bs :=
    fun b hb => mem_of_mem_branchTargets hb
  have agree := agree_of_pairwise_apart apart
  obtain ⟨hs', hub, taken, reads, passes⟩ := attachAll_hub hub₀ (taken₀.mono le_rfl le)
    (fun b hb => each b (hin b hb))
    (fun b hb => (taken₀.apart (each b (hin b hb)).2).agree_around _)
    (fun b hb c hc => agree b (hin b hb) c (hin c hc)) h₂
  have back : (g.around s.identities).wordsTo s.identities = 0 := by
    ext w
    rw [reads, back₀]
    refine iff_of_false ?_ (Language.notMem_zero w)
    rintro (hw | ⟨b, hb, hw⟩)
    · exact Language.notMem_zero w hw
    · have hbn := taken₀.apart (each b (hin b hb)).2 _ (has_iff.2 ⟨_, hub₀.node⟩)
      rw [wordsTo_eq_zero (each b (hin b hb)).1 hbn (natCast_ne_sink _)] at hw
      exact Language.notMem_zero w hw
  have zip := List.forall₂_iff_zip.1 (List.forall₂_map_left_iff.1 words)
  refine ⟨hub.whole, by omega, hs' ▸ taken, fun hp => ?_, fun hp u t ht => ?_⟩
  · obtain ⟨hmem, hbody⟩ := branchOn_lawful zip.1 zip.2 hp
    have out : (g.around s.identities).wordsTo sink =
        caseExecutions table (BranchCase.Entered table name cases) cases := by
      ext w
      rw [reads, out₀, onlyIf_neg (not_not.2 rfl), mem_caseExecutions]
      constructor
      · rintro (hw | ⟨b, hb, hw⟩)
        · exact absurd hw (Language.notMem_zero w)
        · obtain ⟨c, hz, hc⟩ := (hmem b).1 hb
          exact ⟨c, (List.of_mem_zip hz).1, hc, (hbody c b hz).1 ▸ hw⟩
      · rintro ⟨c, hm, hc, hw⟩
        rw [← List.map_fst_zip zip.1.le, List.mem_map] at hm
        obtain ⟨⟨c, b⟩, hz, rfl⟩ := hm
        rw [← (hbody c b hz).1] at hw
        exact Or.inr ⟨b, (hmem b).2 ⟨c, hz, hc⟩, hw⟩
    rw [hub.words rfl, back, out, Stmt.executions, zero_mul, kstar_zero, one_mul]
  · obtain ⟨hmem, hbody⟩ := branchOn_lawful zip.1 zip.2 hp
    cases ht with
    | here => exact hub.passes_here rfl
    | next _ ht => cases ht
    | case hm hc ht =>
      rw [← List.map_fst_zip zip.1.le, List.mem_map] at hm
      obtain ⟨⟨c, b⟩, hz, rfl⟩ := hm
      refine hub.passes_around rfl (passes _ _ (Or.inr ⟨b, (hmem b).2 ⟨c, hz, hc⟩, ?_⟩))
      exact (hbody c b hz).2 _ _ ht

theorem ifElse_lawful {area : TextArea} {branches : List IfBranch} {hasElse : Bool}
    {elseBody : List Stmt} {bs : List Graph}
    (hbs : ∀ {c b}, (c, b) ∈ branches.zip bs → bodyProblems table scene c.body = [] →
      b.words = bodyExecutions table c.body ∧ ∀ u t, Begins table c.body u t → b.Passes u t)
    (hp : (Stmt.ifElse area branches hasElse elseBody).problems table scene = []) :
    bodyProblems table scene elseBody = [] ∧
      ∀ c b, (c, b) ∈ branches.zip bs → b.words = bodyExecutions table c.body ∧
        ∀ u t, Begins table c.body u t → b.Passes u t := by
  rw [Stmt.problems, List.append_eq_nil_iff] at hp
  refine ⟨hp.2, fun c b hz => hbs hz ?_⟩
  exact branchBodyProblems_eq_nil hp.1 c (List.of_mem_zip hz).1

theorem ifElse_rendered (area : TextArea) (branches : List IfBranch) (hasElse : Bool)
    (elseBody : List Stmt) (hb : ∀ b ∈ branches, ∀ x ∈ b.body, Rendered table scene x)
    (he : ∀ x ∈ elseBody, Rendered table scene x) :
    Rendered table scene (.ifElse area branches hasElse elseBody) := by
  intro s g s' h
  rw [Stmt.graph] at h
  obtain ⟨⟨bs, s₁⟩, hbs, h₁⟩ := ok_of_bind_ok h
  obtain ⟨⟨last, s₂⟩, hlast, h₂⟩ := ok_of_bind_ok h₁
  obtain ⟨hfork, hs⟩ := perform_ok h₂
  rw [branchGraphs_eq] at hbs
  obtain ⟨le, apart, each, words⟩ := bodyGraphs_render (by simpa using hb) hbs
  have hr := body_renders he hlast
  have hw : ∀ b ∈ bs ++ [last], b.Whole := by
    intro b hm
    rcases List.mem_append.1 hm with hm | hm
    · exact (each b hm).1
    · exact List.mem_singleton.1 hm ▸ hr.whole
  have hp : (bs ++ [last]).Pairwise Apart := by
    refine List.pairwise_append.2 ⟨apart, List.pairwise_singleton _ _, fun b hm c hc => ?_⟩
    exact List.mem_singleton.1 hc ▸ (each b hm).2.apart hr.taken
  obtain ⟨whole, has, -, -⟩ := fork_ok hfork (by simp) hw hp
  have zip := List.forall₂_iff_zip.1 (List.forall₂_map_left_iff.1 words)
  refine ⟨whole, by have := hr.le; omega, fun id hid => ?_, fun hprob => ?_, fun hprob u t ht => ?_⟩
  · obtain ⟨b, hm, hid⟩ := (has id).1 hid
    rw [hs]
    rcases List.mem_append.1 hm with hm | hm
    · exact (each b hm).2.mono le_rfl hr.le id hid
    · rw [List.mem_singleton.1 hm] at hid
      exact hr.taken.mono le le_rfl id hid
  · obtain ⟨helse, hbody⟩ := ifElse_lawful zip.2 hprob
    ext w
    rw [mem_words_fork hfork (by simp) hw hp, Stmt.executions, Language.mem_add,
      mem_branchExecutions, ← hr.words helse]
    constructor
    · rintro ⟨b, hm, hb⟩
      rcases List.mem_append.1 hm with hm | hm
      · rw [← List.map_snd_zip zip.1.ge, List.mem_map] at hm
        obtain ⟨⟨c, b⟩, hz, rfl⟩ := hm
        exact Or.inl ⟨c, (List.of_mem_zip hz).1, (hbody c b hz).1 ▸ hb⟩
      · exact Or.inr (List.mem_singleton.1 hm ▸ hb)
    · rintro (⟨c, hm, hc⟩ | hb)
      · rw [← List.map_fst_zip zip.1.le, List.mem_map] at hm
        obtain ⟨⟨c, b⟩, hz, rfl⟩ := hm
        exact ⟨b, List.mem_append_left _ (List.of_mem_zip hz).2, (hbody c b hz).1 ▸ hc⟩
      · exact ⟨last, by simp, hb⟩
  · obtain ⟨helse, hbody⟩ := ifElse_lawful zip.2 hprob
    cases ht with
    | here hif => cases hif
    | next _ ht => cases ht
    | branch hm ht =>
      rw [← List.map_fst_zip zip.1.le, List.mem_map] at hm
      obtain ⟨⟨c, b⟩, hz, rfl⟩ := hm
      exact ((hbody c b hz).2 _ _ ht).fork (List.mem_append_left _ (List.of_mem_zip hz).2) hfork hw hp
    | otherwise ht => exact (hr.passes helse _ _ ht).fork (by simp) hfork hw hp

theorem rendered (table : SymbolTable) (scene : String) : ∀ x, Rendered table scene x :=
  Hereditary.stmt ⟨plain_rendered, menu_rendered, branchOn_rendered, ifElse_rendered⟩

theorem draft_cases {s : Scene} {supply supply' : Supply} {g : Graph}
    (h : s.draft table supply = .ok (g, supply')) :
    ∃ b t, bodyGraph table s.name .empty supply s.body = .ok (b, t) ∧
      ((¬s.chapter = true ∧ g = b ∧ supply' = t) ∨
        (s.chapter = true ∧ ∃ first t' operation, s.opening.graph table s.name t = .ok (first, t') ∧
          first.append operation b = .ok g ∧ supply'.identities = t'.identities)) := by
  obtain ⟨⟨b, t⟩, hbody, h⟩ := ok_of_bind_ok h
  refine ⟨b, t, hbody, ?_⟩
  dsimp only at h
  split at h <;> rename_i hchapter
  · obtain ⟨⟨first, t'⟩, hfirst, h⟩ := ok_of_bind_ok h
    obtain ⟨happend, hs⟩ := perform_ok h
    exact Or.inr ⟨hchapter, first, t', _, hfirst, happend, hs⟩
  · cases h
    exact Or.inl ⟨hchapter, rfl, rfl⟩

theorem draft_renders {s : Scene} {supply supply' : Supply} {g : Graph}
    (h : s.draft table supply = .ok (g, supply')) :
    g.Renders supply.identities supply'.identities (s.problems table = []) (s.executions table)
      (Begins table s.statements) := by
  obtain ⟨b, t, hbody, hcases⟩ := draft_cases h
  have hb := body_renders (fun x _ => rendered table s.name x) hbody
  unfold executions statements
  rcases hcases with ⟨hc, rfl, rfl⟩ | ⟨hc, first, t', operation, hfirst, happend, hs⟩
  · exact hb.imp id (by rw [if_neg hc, one_mul]) fun u t ht => by rwa [if_neg hc] at ht
  · have hf := rendered table s.name _ _ _ _ hfirst
    have hr := hf.append hb (hb.taken.apart hf.taken).symm ⟨hb.le, le_rfl⟩ ⟨le_rfl, hf.le⟩ happend
    rw [hs]
    refine hr.imp (fun hp => ⟨rfl, hp⟩) (by rw [if_pos hc]; rfl) fun u t ht => ?_
    rw [if_pos hc] at ht
    exact ht.of_cons

theorem build_cases {s : Scene} {supply : Supply} {built : Built}
    (h : s.build table supply = .ok built) :
    ∃ g, s.draft table supply = .ok (g, built.supply) ∧
      ((s.problems table = [] ∧ g.invalidity? = none ∧ built.graph = some g ∧
          built.problems = []) ∨
        (s.problems table ≠ [] ∧ built.graph = none ∧ built.problems = s.problems table)) := by
  obtain ⟨⟨g, s₁⟩, hdraft, h₁⟩ := ok_of_bind_ok h
  dsimp only at h₁
  split at h₁ <;> rename_i hp
  · rw [List.isEmpty_iff] at hp
    split at h₁ <;> rename_i hi
    · cases h₁
    · cases h₁
      exact ⟨g, ofFault_ok hdraft, Or.inl ⟨hp, hi, rfl, rfl⟩⟩
  · rw [List.isEmpty_iff] at hp
    cases h₁
    exact ⟨g, ofFault_ok hdraft, Or.inr ⟨hp, rfl, rfl⟩⟩

/-- What is read along the complete paths of the graph of a scene are the executions of the scene. -/
theorem words_eq_executions {s : Scene} {supply : Supply} {built : Built} {g : Graph}
    (h : s.build table supply = .ok built) (hg : built.graph = some g) :
    g.words = s.executions table := by
  obtain ⟨d, hd, ⟨hp, -, hb, -⟩ | ⟨-, hb, -⟩⟩ := build_cases h
  · cases hb.symm.trans hg
    exact (draft_renders hd).words hp
  · cases hb.symm.trans hg

/-- A chapter with a loop option that branches on an outcome, and an if without else. -/
def tavern : Scene where
  area := {}
  name := "tavern"
  chapter := true
  body := [
    .plain {} (.assign "mood" "calm"),
    .menu {} .loopSwitch "Well?" [
      ⟨{}, "look", true, [
        .branchOn {} "mood" [
          ⟨{}, some ["calm"], false, [.plain {} (.output "quiet")]⟩,
          ⟨{}, none, true, []⟩],
        .plain {} (.output "hm")]⟩,
      ⟨{}, "leave", false, []⟩],
    .ifElse {} [⟨"late", [.plain {} (.call "road")]⟩] false []]

def moods : SymbolTable := { outcomes := [⟨"mood", ["calm", "grim", "merry"], ""⟩] }

theorem words_eq_executions_tavern : ∃ built g, tavern.build moods {} = .ok built ∧
    built.graph = some g ∧ g.words = tavern.executions moods := by
  obtain ⟨built, g, hb, hg⟩ : ∃ built g, tavern.build moods {} = .ok built ∧
      built.graph = some g := ⟨_, _, rfl, rfl⟩
  exact ⟨built, g, hb, hg, words_eq_executions hb hg⟩

end Scene

namespace SceneGraphs

/-- The graphs of the scenes are whole, and no two of them share a vertex. -/
structure Separate (s : SceneGraphs) : Prop where
  whole : ∀ p ∈ s.graphs, ∀ g ∈ p.2, g.Whole
  taken : ∀ p ∈ s.graphs, ∀ g ∈ p.2, g.TakenIn 0 s.supply.identities
  apart : s.graphs.Pairwise fun p q => ∀ a ∈ p.2, ∀ b ∈ q.2, a.Apart b

theorem separate_buildFrom {table : SymbolTable} {scenes : List Scene} {done s : SceneGraphs}
    (h : buildFrom table done scenes = .ok s) (hd : done.Separate) : s.Separate := by
  induction scenes generalizing done with
  | nil => cases h; exact hd
  | cons x rest ih =>
    rw [buildFrom] at h
    obtain ⟨built, hb, h₁⟩ := ok_of_bind_ok h
    obtain ⟨g, hdraft, hcases⟩ := Scene.build_cases hb
    have hr := Scene.draft_renders hdraft
    have own : ∀ a ∈ built.graph, a = g := by
      rintro a ha
      rcases hcases with ⟨-, -, hg, -⟩ | ⟨-, hg, -⟩
      · exact (Option.some.inj (hg.symm.trans ha)).symm
      · cases hg.symm.trans ha
    refine ih h₁ ⟨?_, ?_, ?_⟩
    · intro p hp a ha
      rcases List.mem_append.1 hp with hp | hp
      · exact hd.whole p hp a ha
      · rw [List.mem_singleton.1 hp] at ha
        exact own a ha ▸ hr.whole
    · intro p hp a ha
      rcases List.mem_append.1 hp with hp | hp
      · exact (hd.taken p hp a ha).mono le_rfl hr.le
      · rw [List.mem_singleton.1 hp] at ha
        exact own a ha ▸ hr.taken.mono (Nat.zero_le _) le_rfl
    · refine List.pairwise_append.2 ⟨hd.apart, List.pairwise_singleton _ _, ?_⟩
      intro p hp q hq a ha b hb
      rw [List.mem_singleton.1 hq] at hb
      exact own b hb ▸ (hd.taken p hp a ha).apart hr.taken

theorem separate_build {story : Story} {table : SymbolTable} {supply : Supply} {s : SceneGraphs}
    (h : story.build table supply = .ok s) : s.Separate :=
  separate_buildFrom h ⟨by simp, by simp, .nil⟩

theorem mem_of_graph? {s : SceneGraphs} {name : String} {g : Graph} (h : s.graph? name = some g) :
    (name, some g) ∈ s.graphs := by
  rw [graph?, Option.join_eq_some_iff, Option.map_eq_some_iff] at h
  obtain ⟨⟨key, x⟩, hf, rfl⟩ := h
  have hk : key = name := by simpa using List.find?_some hf
  exact hk ▸ List.mem_reverse.1 (List.mem_of_find?_eq_some hf)

theorem Separate.apart_of_ne {s : SceneGraphs} (h : s.Separate) {m n : String} {a b : Graph}
    (hm : s.graph? m = some a) (hn : s.graph? n = some b) (hne : m ≠ n) : a.Apart b := by
  have before : s.graphs.Pairwise fun p q => p.1 ≠ q.1 → ∀ a ∈ p.2, ∀ b ∈ q.2, a.Apart b :=
    h.apart.imp fun {p q} hpq (_ : p.1 ≠ q.1) => hpq
  have after : s.graphs.Pairwise fun p q => q.1 ≠ p.1 → ∀ a ∈ q.2, ∀ b ∈ p.2, a.Apart b :=
    h.apart.imp fun {p q} hpq (_ : q.1 ≠ p.1) a ha b hb => (hpq b hb a ha).symm
  have hall := List.Pairwise.forall_of_forall_of_flip (fun p _ hpp => absurd rfl hpp) before after
    (mem_of_graph? hm) (mem_of_graph? hn)
  exact hall hne a rfl b rfl

end SceneGraphs

end StoryFlow
