import FlowTyping.Proofs.Catalog.Bindings
import FlowTyping.Proofs.Flow.Succession
import FlowTyping.Proofs.Inference.Binding

/-
  What generic values end with

  An array literal and a generic value that `new` makes hold provisional types.
  In a settled run the holder has the last of the types that were made for it,
  and this alone watches the nodes that bind it (`Run.Sound.ends`). What it
  stands for is the specialization for the types of these nodes, unless one of
  them was left with a type that has been superseded; so an array literal is the
  array of the type of its elements (`generic_values_end`).
-/
namespace FlowTyping

open Catalog Relation Store

/-! ## Literals -/

/-- `n` is the node of an array literal with elements of the type of `element`: this is what
`RunM.arrayNode` leaves. -/
def Store.Literal (s : Store) (n element : Node) : Prop :=
  ∃ t p buffer, s.catalog.shape t = .provisional p ∧ p.holder = n ∧ p.template = .array ∧
    p.observed = [("@buffer", buffer)] ∧ (s.graph.cell buffer).kind = .pointer ∧
    s.graph.dependencies buffer = [element] ∧ (s.graph.cell element).kind = .plain

section

variable {s s' : Store} {n element : Node}

/-- A literal stays one where the nodes of pointers that are bound keep what they are bound to. -/
theorem Store.Literal.keep (h : s.Literal n element) (hs : s.Sound)
    (hext : s.catalog.Grows s'.catalog)
    (hkind : ∀ m, m.index < s.graph.size → (s'.graph.cell m).kind = (s.graph.cell m).kind)
    (hbound : ∀ m, (s.graph.cell m).kind = .pointer → s.graph.dependencies m ≠ [] →
      s'.graph.dependencies m = s.graph.dependencies m) : s'.Literal n element := by
  obtain ⟨t, p, buffer, hp, hholder, htemplate, hobserved, hpointer, hdeps, hplain⟩ := h
  have hmem : element ∈ s.graph.dependencies buffer := by
    rw [hdeps]
    exact List.mem_singleton_self _
  obtain ⟨st, hst⟩ : ∃ st, s'.catalog.shape t = .provisional { p with standing := st } := by
    have hbecomes := hext.shape t (lt_size_of_provisional hp)
    rw [hp] at hbecomes
    generalize s'.catalog.shape t = shape at hbecomes ⊢
    cases hbecomes with
    | same => exact ⟨_, rfl⟩
    | standing _ st _ => exact ⟨st, rfl⟩
  refine ⟨t, _, buffer, hst, hholder, htemplate, hobserved,
    (hkind _ (Graph.lt_size_of_dependency hmem)).trans hpointer, ?_, (hkind _ ?_).trans hplain⟩
  · exact (hbound buffer hpointer (by rw [hdeps]; exact List.cons_ne_nil _ _)).trans hdeps
  · exact hs.wired.bounded buffer element hmem

/-- Work that binds no node of a pointer anew. -/
theorem Store.Literal.advance {free : Node → Prop} (h : s.Literal n element) (hs : s.Sound)
    (ha : s.Advances free s') (hfree : ∀ m, free m →
      (s.graph.cell m).kind = .plain ∨ s.graph.dependencies m = []) : s'.Literal n element := by
  refine h.keep hs ha.catalog.toGrows ha.kind fun m hkind hdeps => ?_
  obtain ⟨d, hd⟩ := List.exists_mem_of_ne_nil _ hdeps
  refine ha.dependencies m (Graph.lt_size_of_dependency hd) fun hf => ?_
  rcases hfree m hf with hplain | hnone
  · rw [hkind] at hplain
    cases hplain
  · exact hdeps hnone

/-- A provisional type that reacts changes no equation. -/
theorem Store.equations_refresh {t : Ty} {limit : Nat} {u : Unit}
    (h : Store.refresh t limit s = .ok u s') (m : Node) :
    (s'.graph.cell m).kind = (s.graph.cell m).kind ∧
      s'.graph.dependencies m = s.graph.dependencies m := by
  obtain ⟨p, -, ⟨-, rfl⟩ | ⟨_, target, c, -, -, ⟨-, rfl⟩ | ⟨-, rfl⟩⟩⟩ := refresh_ok h
  · exact ⟨rfl, rfl⟩
  · exact ⟨rfl, rfl⟩
  · exact ⟨kind_supersede ⟨c, s.graph⟩ t p target m, dependencies_supersede ⟨c, s.graph⟩ t p target m⟩

/-- Binding changes one equation, which gets another dependency. -/
theorem Store.equations_bind (s : Store) (n d m : Node) :
    ((s.bind n d).graph.cell m).kind = (s.graph.cell m).kind ∧
      (s.bind n d).graph.dependencies m = (s.graph.link n d).dependencies m := by
  rw [bind_eq]
  split
  · have hflows := recompute_flows ⟨s.catalog, s.graph.link n d⟩ n
    exact ⟨(hflows.kind m).trans (Graph.kind_link _ _ _ _), hflows.dependencies m⟩
  · exact ⟨Graph.kind_link _ _ _ _, rfl⟩

theorem Store.Literal.install {buffer : Node} {t : Ty}
    (hpointer : (s.graph.cell buffer).kind = .pointer)
    (hdeps : s.graph.dependencies buffer = [element])
    (hplain : (s.graph.cell element).kind = .plain)
    (h : Store.install .array [("@buffer", buffer)] n s = .ok t s') : s'.Literal n element := by
  obtain ⟨target, c, -, rfl, rfl⟩ := install_ok h
  have hrw := watchAll_rewatches s.graph [("@buffer", buffer)] ⟨c.size⟩
  have hkind : ∀ m, (((watchAll s.graph [("@buffer", buffer)] ⟨c.size⟩).retype n
      ⟨c.size⟩).cell m).kind = (s.graph.cell m).kind := fun m =>
    (Graph.kind_retype _ _ _ _).trans (hrw.kind m)
  refine ⟨⟨c.size⟩, _, buffer, (shape_push c _ _).trans (if_pos rfl), rfl, rfl, rfl,
    (hkind buffer).trans hpointer, ?_, (hkind element).trans hplain⟩
  exact (Graph.dependencies_retype _ _ _ _).trans ((hrw.dependencies buffer).trans hdeps)

theorem Store.Literal.work (h : s.Literal n element) (ht : s.Tended) (hwork : s.Work s') :
    s'.Literal n element := by
  obtain ⟨hs, hb, hk⟩ := ht
  have untouched {s' : Store} (ha : s.Advances (fun _ => False) s') :
      s'.Literal n element := h.advance hs ha fun _ hf => hf.elim
  cases hwork with
  | add kind type place htype =>
    exact untouched (.add hs hb kind place htype)
  | extend hext hsound _ =>
    exact untouched (.extend hs hb hext hsound)
  | watch m site =>
    exact untouched (.rewatch hs hb (.watch _ m _))
  | bind hm hd => exact h.advance hs (.bind hs hb _ hd) fun _ hf => hf ▸ hm.unbound
  | unbind d hm => exact h.advance hs (.unbind hs hb _ d) fun _ hf => hf ▸ hm.unbound
  | install htemplate hholder _ hi =>
    exact h.advance hs (.install hs hb htemplate hholder.unbound hi) fun _ hf =>
      .inr (hf ▸ hholder.unbound)
  | refresh hr =>
    exact h.keep hs (hs.refresh hr).2.1.toGrows (fun m _ => (equations_refresh hr m).1)
      fun m _ _ => (equations_refresh hr m).2

theorem Store.Literal.works (h : s.Literal n element) (ht : s.Tended) (hworks : s.Works s') :
    s'.Literal n element := by
  induction hworks with
  | refl => exact h
  | tail hbefore hwork ih => exact ih.work (ht.works hbefore) hwork

theorem Store.Literal.propagate (h : s.Literal n element) (hs : s.Sound) (hb : s.Balanced [])
    {wakes : List Wake} (hp : Store.propagate s = .ok wakes s') : s'.Literal n element := by
  have hflows := (propagate_ok hs.formed hb hp).flows
  exact h.keep hs hflows.catalog.toGrows (fun m _ => hflows.kind m) fun m _ _ =>
    hflows.dependencies m

end

/-- What an array literal is typed to is a literal. -/
theorem literal_of_arrayNode {r r' : Run} {due : List Task} {place : Place} {n element : Node}
    (hr : r.Sound due) (helement : r.Valid element) (hplain : (r.graph.cell element).kind = .plain)
    (h : RunM.arrayNode place element r = .ok n r') : r'.store.Literal n element := by
  obtain ⟨buffer, r₁, h₁, h⟩ := Steps.bind_ok.mp h
  obtain ⟨rfl, rfl⟩ := Steps.modifyGet_ok.mp h₁
  obtain ⟨_, r₂, h₂, h⟩ := Steps.bind_ok.mp h
  obtain rfl := Steps.modify_ok.mp h₂
  obtain ⟨holder, r₃, h₃, h⟩ := Steps.bind_ok.mp h
  obtain ⟨rfl, rfl⟩ := Steps.modifyGet_ok.mp h₃
  obtain ⟨_, r₄, h₄, h⟩ := Steps.bind_ok.mp h
  obtain ⟨rfl, rfl⟩ := Steps.pure_ok.mp h
  obtain ⟨t, h₄⟩ := Steps.discard_ok.mp h₄
  obtain ⟨s, hinstall, rfl⟩ := onStore_ok.mp h₄
  -- the buffer is new, and bound to the element alone
  have hadd := Graph.cell_add r.graph .pointer none place
  have hbound := equations_bind (r.freshNode .pointer place).2.store ⟨r.graph.size⟩ element
  have hnew : (r.freshNode .pointer place).2.store.graph.cell ⟨r.graph.size⟩ =
      ⟨.pointer, none, [], [], false, place⟩ := Graph.cell_add_new _ _ _ _
  have hold : (r.freshNode .pointer place).2.store.graph.cell element = r.graph.cell element :=
    (hadd element).trans (if_neg (Nat.ne_of_lt helement))
  have hdeps : ((r.freshNode .pointer place).2.bind ⟨r.graph.size⟩ element).graph.dependencies
      ⟨r.graph.size⟩ = [element] := by
    refine (hbound _).2.trans ((Graph.dependencies_link _ _ _ _).trans ?_)
    rw [if_pos ⟨rfl, Graph.size_lt_size_add _ _ _ _⟩, Graph.dependencies, hnew]
    rfl
  have hr₁ := (hr.freshNode .pointer place).1
  have hsize : r.graph.size < ((r.freshNode .pointer place).2.bind ⟨r.graph.size⟩
      element).graph.size :=
    Nat.lt_of_lt_of_le (Graph.size_lt_size_add _ _ _ _) (Advances.bind hr₁.store hr₁.balanced _
      (Nat.lt_trans helement (Graph.size_lt_size_add _ _ _ _))).size
  have hlast : ∀ m : Node, m.index ≤ r.graph.size →
      ((((r.freshNode .pointer place).2.bind ⟨r.graph.size⟩ element).freshNode .plain
        place).2.store.graph.cell m) =
      ((r.freshNode .pointer place).2.bind ⟨r.graph.size⟩ element).graph.cell m := fun m hm =>
    (Graph.cell_add _ _ _ _ _).trans (if_neg (Nat.ne_of_lt (Nat.lt_of_le_of_lt hm hsize)))
  refine .install ?_ ?_ ?_ hinstall
  · exact (congrArg Cell.kind (hlast _ (Nat.le_refl _))).trans
      ((hbound _).1.trans (congrArg Cell.kind hnew))
  · exact (congrArg Cell.dependencies (hlast _ (Nat.le_refl _))).trans hdeps
  · exact (congrArg Cell.kind (hlast _ (Nat.le_of_lt helement))).trans
      ((hbound _).1.trans ((congrArg Cell.kind hold).trans hplain))

/-! ## The provisional types of a settled run -/

namespace Run

variable {r r' : Run} {due : List Ty} {tasks : List Task} {n element : Node} {p : Provisional}
  {t : Ty}

/-- What holds of the provisional types of a run, where those in `due` are still to react. -/
structure Attuned (due : List Ty) (r : Run) : Prop where
  kept : r.store.Kept
  abreast : r.store.Abreast due
  minted : r.catalog.Minted

theorem Sound.tended (hr : r.Sound tasks) (hk : r.store.Kept) : r.store.Tended :=
  ⟨hr.store, hr.balanced, hk⟩

theorem Attuned.works (h : r.Attuned due) (hr : r.Sound tasks) (hg : r.Grows r') :
    r'.Attuned due where
  kept := ((hr.tended h.kept).works hg.works).kept
  abreast := h.abreast.works (hr.tended h.kept) hg.works
  minted := (hg.works.remembers hr.store).minted h.minted

/-- A run has no provisional types at its start. -/
theorem attuned_start {c : Catalog} (hdeclared : seeded.Declares c) (options : Options) :
    (Run.start c options).Attuned [] := by
  have hnone : ∀ t p, c.shape t ≠ .provisional p := hdeclared.shape_ne_provisional
  refine ⟨⟨fun t p hp => (hnone t p hp).elim, fun t p hp => (hnone t p hp).elim,
    fun t p hp => (hnone t p hp).elim, fun t p u hp => (hnone t p hp).elim,
    fun t p hp => (hnone t p hp).elim, fun n t hw => ?_⟩, fun t p u hp => (hnone t p hp).elim,
    fun key t ht => ?_⟩
  · have hw : .provisional t ∈ ((Graph.empty options.stepLimit).cell n).watchers := hw
    rw [Graph.cell_of_size_le (Nat.zero_le _)] at hw
    cases hw
  · have ht : c.specializations.get? key = some t := ht
    rw [hdeclared.specializations, Table.get?, elementary_seeded.specializations] at ht
    cases ht

end Run

variable {program : Expr} {options : Options} {result : Node} {r : Run} {typer : Typer}

/-- A round of propagation leaves behind what it wakes, and each of these catches up. -/
theorem enduring_attuned (htyper : typer.Sound) :
    Enduring typer options fun wakes r => r.Attuned (wokenTypes wakes) where
  propagate hr h hp := by
    have happends := propagate_appends hp
    exact ⟨((hr.tended h.kept).propagate hp).kept, h.abreast.propagate (hr.tended h.kept) hp,
      happends.remembers.minted h.minted⟩
  call hr hs h hrebind :=
    h.works hr (rebindCall_ok htyper hr hs List.mem_cons_self hrebind).2.2.toGrows
  refresh hr h hrefresh :=
    ⟨h.kept.refresh hr.store hrefresh,
      h.abreast.refresh (hr.tended h.kept) hrefresh fun _ hu => List.mem_cons.mp hu,
      (remembers_refresh hr.store hrefresh).minted h.minted⟩

/-- What was typed to an array literal is one in the settled run. -/
theorem Store.Literal.settle {r' : Run} {n element : Node} {u : Unit} (htyper : typer.Sound)
    (hr : r.Sound []) (hk : r.store.Kept) (h : r.store.Literal n element)
    (hsettle : RunM.settle typer options r = .ok u r') : r'.store.Literal n element := by
  have hP : Enduring typer options fun _ r => r.store.Kept ∧ r.store.Literal n element :=
    { propagate := fun hr h hp => ⟨((hr.tended h.1).propagate hp).kept,
        h.2.propagate hr.store hr.balanced hp⟩
      call := fun hr hs h hrebind => by
        have hworks := (rebindCall_ok htyper hr hs List.mem_cons_self hrebind).2.2.toGrows.works
        exact ⟨((hr.tended h.1).works hworks).kept, h.2.works (hr.tended h.1) hworks⟩
      refresh := fun hr h hrefresh =>
        ⟨h.1.refresh hr.store hrefresh, h.2.work (hr.tended h.1) (.refresh hrefresh)⟩ }
  exact (settle_ok htyper hP hr ⟨hk, h⟩ hsettle).2.2.2

theorem Settles.attuned (h : Settles program options result r) : r.Attuned [] := by
  obtain ⟨u, c, hdeclare, hsettle⟩ := h
  have hdeclared := DeclareM.declareProgram_declares hdeclare
  exact (settleProgram_endures hdeclared (enduring_attuned (typerWithin_sound _))
    (fun _ _ hl => (Run.attuned_start hdeclared options).works (.start hdeclared options)
      hl.toGrows) hsettle).2.2

/-! ## What generic values end with -/

/-- What the generic value that `p` was made for ends with: the type `last`, whose entry `q` stands
for `spec`. -/
structure Run.Ends (r : Run) (p : Provisional) (last : Ty) (q : Provisional) (spec : Ty) :
    Prop where
  shape : r.catalog.shape last = .provisional q
  template : q.template = p.template
  observed : q.observed = p.observed
  holder : q.holder = p.holder
  target : q.standing.target? = some spec
  /-- The value has the last type. -/
  type : r.graph.typeAt p.holder = some last
  /-- All types that were made for the value have led to the last one. -/
  line : ∀ t v, r.catalog.shape t = .provisional v → v.holder = p.holder →
    ReflTransGen r.store.Succeeds t last
  /-- Only the last one is live. -/
  live : ∀ t v, r.catalog.shape t = .provisional v → v.holder = p.holder →
    (v.standing.isSuperseded = false ↔ t = last)
  /-- Of these types the last one alone watches each node that binds the value. -/
  watches : ∀ t v, r.catalog.shape t = .provisional v → v.holder = p.holder →
    ∀ n ∈ sources p.observed, r.store.Watches t n ↔ t = last
  /-- It is settled if all of these nodes have types. -/
  settled : (∃ u, q.standing = .settled u) ↔
    ∀ n ∈ sources p.observed, (r.graph.typeAt n).isSome = true
  /-- It stands for the specialization for the types that these nodes have. -/
  current : (∀ n ∈ sources p.observed, ∀ t, r.graph.typeAt n = some t →
      r.catalog.isSuperseded t = false) →
    r.catalog.instantiate p.template (bindings r.graph p.observed) = .ok (spec, r.catalog)

theorem Run.Ends.resolvedType {p q : Provisional} {last spec : Ty} (h : r.Ends p last q spec) :
    r.resolvedType p.holder = some spec := by
  unfold Run.resolvedType
  rw [h.type, Option.map_some, resolve_of_live h.shape h.target]

/-- `n` has the array type whose buffer points to what `t` stands for. -/
def Run.IsArrayOf (r : Run) (n : Node) (t : Ty) : Prop :=
  ∃ pointer array, r.resolvedType n = some array ∧
    r.catalog.shape pointer = .pointer (some (r.catalog.resolve t)) ∧
    r.catalog.specializations.get? (.array, [("@buffer", pointer)]) = some array ∧
    r.catalog.slot? array "@buffer" = some (some pointer)

theorem Store.isSettled_standing_iff {g : Graph} {observed : List (String × Node)} {target : Ty} :
    (∃ u, standing g observed target = .settled u) ↔
      ∀ n ∈ sources observed, (g.typeAt n).isSome = true := by
  have hcomplete : isComplete g observed = true ↔
      ∀ n ∈ sources observed, (g.typeAt n).isSome = true := by
    unfold isComplete sources
    rw [List.all_eq_true, List.forall_mem_map]
  rw [← hcomplete]
  unfold standing
  split
  · next h => exact ⟨fun _ => h, fun _ => ⟨_, rfl⟩⟩
  · next h =>
    refine ⟨fun hu => ?_, fun hc => absurd hc h⟩
    obtain ⟨u, hu⟩ := hu
    cases hu

theorem Store.bindings_names_sublist (g : Graph) (observed : List (String × Node)) :
    ((bindings g observed).map (·.1)).Sublist (observed.map (·.1)) := by
  unfold bindings
  induction observed with
  | nil => exact .slnil
  | cons b observed ih =>
    cases h : g.typeAt b.2 with
    | none =>
      rw [List.filterMap_cons_none (by rw [h]; rfl)]
      exact .cons _ ih
    | some t =>
      rw [List.filterMap_cons_some (b := (b.1, t)) (by rw [h]; rfl)]
      exact .cons_cons _ ih

theorem Store.mem_bindings {g : Graph} {observed : List (String × Node)} {name : String} {d : Node}
    {t : Ty} (hb : (name, d) ∈ observed) (ht : g.typeAt d = some t) :
    (name, t) ∈ bindings g observed :=
  List.mem_filterMap.mpr ⟨_, hb, by rw [ht]; rfl⟩

namespace Run

variable {n element d : Node} {p q : Provisional} {t last spec : Ty} {name : String}

/-- In a run without dirty nodes a live type is current. -/
theorem Attuned.current (h : r.Attuned []) (hquiet : r.Quiet) {u : Ty}
    (hp : r.catalog.shape t = .provisional p) (hu : p.standing.target? = some u) :
    r.store.Current p u := by
  rcases h.abreast t p u hp hu with hcurrent | ⟨n, -, hd⟩ | hdue
  · exact hcurrent
  · rw [show r.store.graph.dirtyAt n = r.graph.dirtyAt n from rfl, hquiet.clean] at hd
    cases hd
  · cases hdue

theorem Attuned.ends (h : r.Attuned []) (hr : r.Sound []) (hquiet : r.Quiet)
    (hp : r.catalog.shape t = .provisional p) : ∃ last q spec, r.Ends p last q spec := by
  have hk := h.kept
  have hgrounded := hr.store.catalog.canonical.grounded
  obtain ⟨last, q, hq, hl, -, htemplate, hobserved, hholder⟩ :=
    exists_last hk.successor hgrounded hp
  have htype : r.graph.typeAt p.holder = some last := hholder ▸ hk.live last q hq hl
  have hunique : ∀ t v, r.catalog.shape t = .provisional v → v.holder = p.holder →
      v.standing.isSuperseded = false → t = last := fun t v hv hsame hlive => by
    have := hk.live t v hv hlive
    rw [hsame] at this
    exact Option.some.inj (this.symm.trans htype)
  obtain ⟨u, hu⟩ : ∃ u, q.standing.target? = some u := by
    cases hs : q.standing with
    | pending u => exact ⟨u, rfl⟩
    | settled u => exact ⟨u, rfl⟩
    | superseded u =>
      rw [hs] at hl
      cases hl
  have hcurrent := h.current hquiet hq hu
  refine ⟨last, q, u, hq, htemplate, hobserved, hholder, hu, htype, fun t v hv hsame => ?_,
    fun t v hv hsame => ⟨hunique t v hv hsame, ?_⟩, fun t v hv hsame m hm => ⟨fun hw => ?_, ?_⟩,
    ?_, fun hstands => ?_⟩
  · obtain ⟨last', q', hq', hl', hpath, -, -, hholder'⟩ :=
      exists_last hk.successor hgrounded hv
    rwa [hunique last' q' hq' (hholder'.trans hsame) hl'] at hpath
  · rintro rfl
    rwa [Shape.provisional.inj (hv.symm.trans hq)]
  · obtain ⟨v', hv', hl', -⟩ := hk.watching m t hw
    obtain rfl := Shape.provisional.inj (hv.symm.trans hv')
    exact hunique t v hv hsame hl'
  · rintro rfl
    exact hk.watched t q hq hl m (hobserved.symm ▸ hm)
  · rw [hcurrent.1, hobserved]
    exact isSettled_standing_iff
  · have := hcurrent.instantiate (by rw [hobserved]; exact hstands)
    rwa [htemplate, hobserved] at this

/-- If `d` has a type then `spec` has the slot `name`, with the type that `d` stands for unless it
was left with a type that has been superseded. -/
def HasSlot (r : Run) (spec : Ty) (name : String) (d : Node) : Prop :=
  ∀ t, r.graph.typeAt d = some t → ∃ v, r.catalog.slot? spec name = some (some v) ∧
    (r.catalog.isSuperseded t = false → v = r.catalog.resolve t)

/-- What a provisional type stands for is a specialization of its template. -/
theorem Attuned.specializes (h : r.Attuned []) (hquiet : r.Quiet)
    (hq : r.catalog.shape last = .provisional q) (hspec : q.standing.target? = some spec)
    (ht : r.catalog.Template q.template) : r.catalog.Specializes spec q.template := by
  obtain ⟨-, c, -, -, template, htemplate, hknown⟩ := h.current hquiet hq hspec
  obtain rfl := Option.some.inj (htemplate.symm.trans ht.templateOf_eq)
  obtain ⟨o, -, hcopy⟩ := h.minted _ _ hknown
  exact ⟨_, hcopy, rfl⟩

/-- What a provisional type stands for has a slot for each node that binds it. -/
theorem Attuned.hasSlot (h : r.Attuned []) (hquiet : r.Quiet)
    (hq : r.catalog.shape last = .provisional q) (hspec : q.standing.target? = some spec)
    (hnames : (q.observed.map (·.1)).Nodup) (hb : (name, d) ∈ q.observed) :
    r.HasSlot spec name d := by
  intro t ht
  obtain ⟨-, c, hc, hlt, template, -, hknown⟩ := h.current hquiet hq hspec
  obtain ⟨o, -, hcopy⟩ := h.minted _ _ hknown
  have hmem : (name, t) ∈ bindings r.graph q.observed := mem_bindings hb ht
  have hnodup : ((bindings r.graph q.observed).map (·.1)).Nodup :=
    hnames.sublist (bindings_names_sublist _ _)
  refine ⟨c.resolve t, ?_, fun hl => (hc.resolve_eq (hlt _ hmem) hl).symm⟩
  have hproper : r.catalog.resolve spec = spec :=
    resolve_of_definite ⟨lt_size_of_object hcopy, by rw [hcopy]; rfl⟩
  have hslots : r.catalog.slots spec =
      (copyOf template o (c.bindingKey (bindings r.graph q.observed))).slots := by
    unfold slots resolvedShape
    rw [hproper, hcopy]
    rfl
  have hbound : c.bound (bindings r.graph q.observed) name = some (c.resolve t) := by
    unfold bound
    rw [(lookup_eq_some_iff_mem hnodup).mpr hmem]
    rfl
  unfold slot?
  rw [hslots]
  refine (get?_slots_copy hnodup o.slots name).trans ?_
  rw [hbound]
  rfl

/-- An array whose elements have a type that was not superseded is the array of that type. -/
theorem Attuned.isArrayOf (h : r.Attuned []) (hr : r.Sound []) (hquiet : r.Quiet)
    (hn : r.store.Literal n element) (ht : r.graph.typeAt element = some t)
    (hl : r.catalog.isSuperseded t = false) : r.IsArrayOf n t := by
  obtain ⟨w, p, buffer, hp, rfl, htemplate, hobserved, hkind, hdeps, -⟩ := hn
  -- the buffer has the pointer type for the type of the elements
  have hsolved := hr.solved hquiet buffer
  have hinputs : r.store.graph.inputs buffer = [t] := by
    unfold Graph.inputs
    rw [hdeps]
    exact List.filterMap_cons_some ht
  unfold Store.Solved at hsolved
  rw [hkind, hinputs] at hsolved
  obtain ⟨pointer, hpointer, u, hjoined, hforms⟩ := hsolved.exact (List.cons_ne_nil _ _)
    fun u hu => by rw [List.mem_singleton.mp hu]; exact hl
  obtain rfl : t = u := by
    cases hjoined
    rfl
  have hforms : r.catalog.pointerFor t = (pointer, r.catalog) := hforms
  have hshape : r.catalog.shape pointer = .pointer (some (r.catalog.resolve t)) := by
    have := shape_pointerFor r.catalog t
    rwa [hforms] at this
  have hdefinite : r.catalog.Definite pointer := by
    have := definite_pointerFor r.catalog t
    rwa [hforms] at this
  have hbindings : bindings r.graph p.observed = [("@buffer", pointer)] := by
    unfold bindings
    rw [hobserved]
    exact List.filterMap_cons_some (congrArg (Option.map _) hpointer)
  have hproper : r.catalog.resolve pointer = pointer := resolve_of_definite hdefinite
  obtain ⟨last, q, array, hends⟩ := h.ends hr hquiet hp
  have hinstantiate := hends.current fun m hm u hu => by
    rw [hobserved] at hm
    obtain rfl := List.mem_singleton.mp hm
    obtain rfl := Option.some.inj (hpointer.symm.trans hu)
    exact isSuperseded_of_definite hdefinite
  -- the array is known by its buffer, and has it as a slot
  obtain ⟨-, template, htemplateOf, hknown⟩ := hr.store.catalog.remembers_instantiate hinstantiate
  rw [htemplate] at htemplateOf
  obtain rfl := Option.some.inj (htemplateOf.symm.trans hr.array.templateOf_eq)
  have hkey : r.catalog.bindingKey (bindings r.graph p.observed) = [("@buffer", pointer)] := by
    rw [hbindings]
    show sortBindings [("@buffer", r.catalog.resolve pointer)] = _
    rw [hproper]
    rfl
  rw [show r.store.catalog.bindingKey _ = _ from hkey] at hknown
  obtain ⟨v, hslot, hv⟩ := h.hasSlot hquiet hends.shape hends.target
    (by rw [hends.observed, hobserved]; simp)
    (by rw [hends.observed, hobserved]; exact List.mem_singleton_self _) pointer hpointer
  rw [hv (isSuperseded_of_definite hdefinite), hproper] at hslot
  exact ⟨pointer, array, hends.resolvedType, hshape, hknown, hslot⟩

end Run

/-- The elements of a literal have a type that was not superseded if one of them has, or if their
type is written. -/
theorem Run.Sound.standing_element {n element d : Node} (hr : r.Sound []) (hquiet : r.Quiet)
    (hn : r.store.Literal n element) (hd : d ∈ r.graph.dependencies element)
    (hl : r.Standing d) : r.Standing element := by
  obtain ⟨-, -, -, -, -, -, -, -, -, hplain⟩ := hn
  obtain ⟨t, ht, hl⟩ := hl
  have hsolved := hr.solved hquiet element
  unfold Store.Solved at hsolved
  rw [hplain] at hsolved
  obtain ⟨u, hu, hcover⟩ := hsolved.covers (mem_inputs.mpr ⟨d, hd, ht⟩) hl
  rcases hcover with rfl | ⟨hdefinite, -⟩
  · exact ⟨u, hu, hl⟩
  · exact ⟨u, hu, isSuperseded_of_definite hdefinite⟩

/-- The array literals of a run with the nodes of their elements. -/
def Run.literals (r : Run) : List (Node × Node) :=
  (List.range r.catalog.size).filterMap fun i =>
    match r.catalog.shape ⟨i⟩ with
    | .provisional ⟨template, [(name, buffer)], holder, _, _⟩ =>
      match r.graph.dependencies buffer with
      | [element] =>
        if template = .array ∧ name = "@buffer" ∧ (r.graph.cell buffer).kind = .pointer ∧
          (r.graph.cell element).kind = .plain then some (holder, element) else none
      | _ => none
    | _ => none

theorem Run.literal_of_mem_literals {n element : Node} (h : (n, element) ∈ r.literals) :
    r.store.Literal n element := by
  obtain ⟨i, -, heq⟩ := List.mem_filterMap.mp h
  split at heq
  · next template name buffer holder st generation hp =>
    split at heq
    · next only hdeps =>
      split at heq
      · next hall =>
        obtain ⟨rfl, rfl, hpointer, hplain⟩ := hall
        cases heq
        exact ⟨⟨i⟩, _, buffer, hp, rfl, rfl, rfl, hpointer, hdeps, hplain⟩
      · cases heq
    · cases heq
  · cases heq

section
open Sample

/-- The element of a list gets a second type once the list is there. -/
def widenedList : Expr := lines [
  setVar "x" int,
  setVar "list" (list [var "x"]),
  setVar "x" double,
  var "list"]

end

theorem widenedList_literals : (settledRun widenedList ⟨100, 5, 8, 5⟩).any (fun (_, r) =>
    r.literals.any fun l => (r.graph.typeAt l.2).any fun t =>
      !r.catalog.isSuperseded t && (r.catalog.members t).length == 2) = true := by
  decide +kernel

/-- Whether a literal is no array of the type that its elements end with. -/
def Run.outdates (r : Run) (n element : Node) : Bool :=
  match r.resolvedType n, r.resolvedType element with
  | some array, some t =>
    match r.catalog.slot? array "@buffer" with
    | some (some pointer) => !(r.catalog.shape pointer).isPointerFor t
    | _ => true
  | _, _ => false

section
open Sample

/-- Two boxes get the same type when the value of one of them gets wider. The variable of the other
type is then left with a type from the call that was bound to the first, and a list of it is made. -/
def boxesThatAreListed : Expr := lines [
  genericClass "Box" [
    method "initialize" [] (setSlot "@value" (run "given" [])),
    method "initialize" [("x", none)] (setSlot "@value" (var "x")),
    method "initialize" [("x", none), ("y", none)] (lines [
      setSlot "@value" (var "x"),
      setSlot "@value" (var "y")]),
    method "value" [] (slot "@value"),
    method "fill" [] (setSlot "@held" (list [run "wide" []])),
    method "held" [] (slot "@held"),
    method "pass" [] (lines [
      setSlot "@held" (send (named "A") "held" []),
      list [slot "@held"]])],
  method "given" [] (slot "@given"),
  method "wide" [] (slot "@wide"),
  setSlot "@given" int,
  setConstant "A" (send (named "Box") "new" []),
  setConstant "B" (send (named "Box") "new" [int]),
  setConstant "C" (send (named "Box") "new" [int, double]),
  setSlot "@wide" (send (named "A") "value" []),
  send (named "B") "fill" [],
  send (named "C") "pass" [],
  setSlot "@given" double,
  send (named "C") "held" []]

end

theorem boxesThatAreListed_outdates : (settledRun boxesThatAreListed ⟨200, 5, 8, 10⟩).any
    (fun (_, r) => r.literals.any fun l => r.outdates l.1 l.2) = true := by
  decide +kernel

end FlowTyping
