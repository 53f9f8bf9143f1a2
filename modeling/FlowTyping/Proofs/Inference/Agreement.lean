import FlowTyping.Proofs.Inference.Alike
import FlowTyping.Proofs.Inference.Defining
import FlowTyping.Proofs.Inference.Outcome
import FlowTyping.Proofs.Inference.Slots

/-
  What the passes over a program agree on

  While expressions are typed names mean what they have meant before, so the
  bodies of classes and modules are typed with the types that their methods are
  declared for (`openProgram_opens`). If a check succeeds, all three passes open
  the same types, up to those whose names records take over, and methods are
  found where they stand (`passes_agree`).
-/
namespace FlowTyping

open Steps Catalog

variable {c c' c₁ : Catalog} {scope t t' : Ty} {name : String} {within : List Ty}

/-! ## Expressions -/

/-- Typing goes on in a catalog that is made from `c`. -/
structure Typing.Continues (c : Catalog) (due : List Task) (ctx : Context) (s : Typing) : Prop where
  sound : s.Sound due
  fits : ctx.Fits s.run
  home : c.Definite ctx.home
  extended : c.Extends s.run.catalog
  named : c.KeepsNames s.run.catalog

section

variable {typer : Typer} {due : List Task} {ctx : Context} {s s' : Typing}
  {result : Node × List Opening} {opened : List Opening}

theorem Typing.Continues.nodeOf (hs : s.Continues c due ctx) (hsound : typer.Sound)
    (halike : typer.Alike typer) {e : Expr} {n : Node}
    (h : TypingM.nodeOf typer ctx e s = .ok n s') : s'.Continues c due ctx := by
  obtain ⟨hsound', hl, -⟩ := (keeps_nodeOf hsound hs.fits e hs.sound).ok n s' h
  have halike' : Alike typings s (TypingM.nodeOf typer ctx e) (TypingM.nodeOf typer ctx e) :=
    alike_nodeOf halike e
  have hnames := halike'.names
  rw [h] at hnames
  exact ⟨hsound', hl.contextFits hs.fits, hs.home, hs.extended.trans hl.toRetains.extended,
    hs.named.trans hnames⟩

theorem inFreshScopes_ok {α : Type} {act : TypingM α} {a : α} {r r' : Run}
    (h : RunM.inFreshScopes act r = .ok a r') :
    ∃ s', act ⟨.empty, r⟩ = .ok a s' ∧ s'.run = r' := by
  unfold RunM.inFreshScopes at h
  split at h
  · next b s' hact =>
    cases h
    exact ⟨s', hact, rfl⟩
  · cases h

theorem lift_ofExcept_ok {α : Type} {x : Except TypingError α} {a : α}
    (h : Typing.lift (RunM.ofExcept x) s = .ok a s') : x = .ok a ∧ s = s' := by
  cases x with
  | ok b =>
    cases h
    exact ⟨rfl, rfl⟩
  | error e => cases h

/-- What a name means while expressions are typed. -/
theorem Typing.Continues.declared (hs : s.Continues c due ctx)
    (hname : c.nestedType ctx.home name = some t)
    (h : s.run.catalog.declared ctx.home name = .ok t') : t' = t := by
  have hkept := (hs.named.nestedType hs.extended.toGrows hs.home hname).resolve_right
    List.not_mem_nil
  exact Option.some.inj ((DeclareM.declared_ok h).symm.trans hkept)

/-- The body of a class or module is typed with a catalog made from `c`. -/
theorem Typing.Continues.inner (hc : c.Sound) (hs : s.Continues c due ctx)
    (hname : c.nestedType ctx.home name = some t) :
    Continues c due (TypingM.declarationContext ctx s.run.catalog t) ⟨.empty, s.run⟩ := by
  have ht := hc.nestedType hname
  have hdefinite := hs.extended.toGrows.definite ht
  refine ⟨⟨hs.sound.run, .empty _⟩, ⟨?_, hdefinite, fun body hbody => by cases hbody⟩, ht,
    hs.extended, hs.named⟩
  show s.run.catalog.Definite ((s.run.catalog.metaclass? t).getD t)
  cases hmetaclass : s.run.catalog.metaclass? t with
  | some metaclass => exact definite_of_metaclass? hmetaclass
  | none => exact hdefinite

/-- What typing a class or module opens, if it opens in the body what the names mean. -/
theorem openDeclaration_opens (hc : c.Sound) (hs : s.Continues c due ctx) {mark : Mark}
    {typeBody : Ty → Context → TypingM (Node × List Opening)} {body : Expr}
    (hbody : ∀ t inner s₁ result s₂ opened, inner.home = t → Typing.Continues c due inner s₁ →
      typeBody t inner s₁ = .ok result s₂ →
      openings c.nestedType (t :: within) t body = some opened → result.2 = opened)
    (hopened : (do
      let t ← c.nestedType ctx.home name
      let inner ← openings c.nestedType (t :: within) t body
      pure (⟨mark, t, within⟩ :: inner) : Option (List Opening)) = some opened)
    (h : (do
      let inner ← TypingM.openDeclaration mark within ctx name typeBody
      return (← TypingM.record ctx mark inner.1, inner.2)) s = .ok result s') :
    result.2 = opened := by
  obtain ⟨t, inside, hname, hinside, rfl⟩ := DeclareM.openings_of_opened hopened
  obtain ⟨shown, s₀, h, hrecord⟩ := bind_ok.mp h
  obtain ⟨n, s₁, -, hrecord⟩ := bind_ok.mp hrecord
  refine (congrArg Prod.snd (pure_ok.mp hrecord).1).symm.trans ?_
  -- the catalog is read, and the name looked up in it
  obtain ⟨d, s₁, hcatalog, h⟩ := bind_ok.mp h
  obtain ⟨rfl, rfl⟩ : s.run.catalog = d ∧ s = s₁ := pure_ok.mp hcatalog
  obtain ⟨t', s₂, hdeclared, h⟩ := bind_ok.mp h
  obtain ⟨hmeaning, rfl⟩ := lift_ofExcept_ok hdeclared
  obtain rfl := hs.declared hname hmeaning
  obtain ⟨inner, s₃, hinner, h⟩ := bind_ok.mp h
  obtain ⟨r, htyped, -⟩ := lift_ok.mp hinner
  obtain ⟨s₅, htyped, -⟩ := inFreshScopes_ok htyped
  obtain ⟨n, s₄, -, h⟩ := bind_ok.mp h
  obtain ⟨rfl, -⟩ := pure_ok.mp h
  exact congrArg (List.cons _) (hbody t' _ _ inner _ inside rfl (hs.inner hc hname) htyped hinside)

mutual

theorem openNodes_opens {c : Catalog} {typer : Typer} {due : List Task} {within : List Ty}
    {ctx : Context} {s s' : Typing} {result : Node × List Opening} {opened : List Opening}
    (hc : c.Sound) (hsound : typer.Sound) (halike : typer.Alike typer)
    (hs : s.Continues c due ctx) (e : Expr)
    (hopened : openings c.nestedType within ctx.home e = some opened)
    (h : TypingM.openNodes typer within ctx e s = .ok result s') : result.2 = opened := by
  cases e with
  | sequence mark items =>
    obtain ⟨inner, s₁, hinner, h⟩ := bind_ok.mp h
    have hitems := openNodesAll_opens hc hsound halike hs items hopened hinner
    cases hlast : inner.1.getLast? with
    | some last =>
      rw [hlast] at h
      obtain ⟨n, s₂, -, h⟩ := bind_ok.mp h
      obtain ⟨rfl, -⟩ := pure_ok.mp h
      exact hitems
    | none =>
      rw [hlast] at h
      obtain ⟨nil, s₂, -, h⟩ := bind_ok.mp h
      obtain ⟨n, s₃, -, h⟩ := bind_ok.mp h
      obtain ⟨rfl, -⟩ := pure_ok.mp h
      exact hitems
  | classDef mark name superclass generic body =>
    refine openDeclaration_opens hc hs
      (fun t inside s₁ result s₂ opened hhome hs h hbody => ?_) hopened h
    exact openNodes_opens hc hsound halike hs body (hhome ▸ hbody) h
  | moduleDef mark name body =>
    refine openDeclaration_opens hc hs
      (fun t inside s₁ result s₂ opened hhome hs h hbody => ?_) hopened h
    exact openNodes_opens hc hsound halike hs body (hhome ▸ hbody) h
  | _ =>
    obtain ⟨n, s₁, -, h⟩ := bind_ok.mp h
    obtain ⟨rfl, -⟩ := pure_ok.mp h
    exact Option.some.inj hopened

theorem openNodesAll_opens {c : Catalog} {typer : Typer} {due : List Task} {within : List Ty}
    {ctx : Context} {s s' : Typing} {result : List Node × List Opening} {opened : List Opening}
    (hc : c.Sound) (hsound : typer.Sound) (halike : typer.Alike typer)
    (hs : s.Continues c due ctx) (es : List Expr)
    (hopened : openingsAll c.nestedType within ctx.home es = some opened)
    (h : TypingM.openNodesAll typer within ctx es s = .ok result s') : result.2 = opened := by
  cases es with
  | nil =>
    obtain ⟨rfl, -⟩ := pure_ok.mp h
    exact Option.some.inj hopened
  | cons e rest =>
    obtain ⟨first, s₁, hfirst, h⟩ := bind_ok.mp h
    obtain ⟨later, s₂, hlater, h⟩ := bind_ok.mp h
    obtain ⟨rfl, -⟩ := pure_ok.mp h
    obtain ⟨one, hone, hopened⟩ := Option.bind_eq_some_iff.mp hopened
    obtain ⟨others, hothers, hopened⟩ := Option.bind_eq_some_iff.mp hopened
    cases hopened
    have hnode : TypingM.nodeOf typer ctx e s = .ok first.1 s₁ := by
      rw [nodeOf_eq typer within ctx e]
      exact functor_map_ok.mpr ⟨first, hfirst, rfl⟩
    have hs₁ := hs.nodeOf hsound halike hnode
    exact congrArg₂ (· ++ ·) (openNodes_opens hc hsound halike hs e hone hfirst)
      (openNodesAll_opens hc hsound halike hs₁ rest hothers hlater)

end

end

/-! ## The passes of a check -/

/-- A method stands where its text does: it belongs to the type of its class or module, or to the
metaclass of that, and is found there under each key that is not taken over by a later definition of
that name and key for that owner. Constants have no class table to stand in. -/
structure Definition.Stands (c : Catalog) (after : List Definition) (d : Definition) : Prop where
  owner : DeclareM.methodOwner c d.scope d.onMetaclass = .ok d.method.owner
  method : c.method d.id = d.method
  found : (∃ name container value, c.shape d.method.owner = .constant name container value) ∨
    ∀ key ∈ methodKeys d.method,
      c.methodUnder d.method.owner d.method.name key = some d.id ∨
        ∃ later ∈ after, later.method.owner = d.method.owner ∧
          later.method.name = d.method.name ∧ key ∈ methodKeys later.method

variable {definitions before after : List Definition} {d : Definition} {program : Expr}
  {options : Options} {result : Node} {r : Run} {checked : Checked}

theorem Catalog.Extends.methodUnder_eq (h : c.Extends c') (ht : c.Definite t) (name : String)
    (key : MethodKey) : c'.methodUnder t name key = c.methodUnder t name key := by
  have hmethods := h.tableOf_map_eq ht ClassTable.methods fun _ _ => rfl
  have hbind := congrArg (·.bind fun (table : MethodTable) => (table.get? name).bind (·.get? key))
    hmethods
  rwa [Option.bind_map, Option.bind_map] at hbind

theorem DeclareM.Defines.id_eq (h : Defines c [] definitions c')
    (hsplit : definitions = before ++ d :: after) :
    d.id = ⟨c.methods.size + before.length⟩ := by
  have hlt : before.length < definitions.length := by
    rw [hsplit, List.length_append, List.length_cons]
    omega
  have hget : (definitions.map (·.id.index))[before.length]? = some d.id.index := by
    rw [hsplit]
    simp
  rw [h.ids, List.getElem?_range' hlt] at hget
  refine congrArg MethodHandle.mk ?_
  simpa using (Option.some.inj hget).symm

/-- The definitions of the method pass stand in the catalog that it leaves, and in any that is made
from this. -/
theorem DeclareM.Defines.stands (hc : c.Early) (h : Defines c [] definitions c')
    (hext : c'.Extends c₁) (hsplit : definitions = before ++ d :: after) :
    d.Stands c₁ after := by
  obtain ⟨hscope, howner⟩ := h.owned d (hsplit ▸ List.mem_append_right _ List.mem_cons_self)
  have hid := h.id_eq hsplit
  have hc' : c' = c.defineAll (before.map (·.method) ++ d.method :: after.map (·.method)) := by
    rw [h.eq, hsplit, List.nil_append, List.map_append, List.map_cons]
  subst hc'
  have hgrows := Grows.of_shapes_eq (shapes_defineAll c
    (before.map (·.method) ++ d.method :: after.map (·.method)))
  have hdefinite := methodOwner_definite hscope howner
  refine ⟨?_, ?_, ?_⟩
  · exact methodOwner_congr ((hext.metaclass?_eq (hgrows.definite hscope)).trans
      (metaclass?_of_shapes_eq (shapes_defineAll _ _) _)) howner
  · unfold Catalog.method
    rw [hext.methods, methods_defineAll, hid]
    simp
  · cases hk : c.cls? d.method.owner with
    | none =>
      obtain ⟨name, container, value, hshape⟩ :=
        hc.tabled.constant d.method.owner hdefinite.1 (hc.plain.cls?_eq.symm.trans hk)
      have hbecomes := (hgrows.trans hext.toGrows).shape d.method.owner hdefinite.1
      rw [hshape] at hbecomes
      generalize c₁.shape d.method.owner = later at hbecomes ⊢
      cases hbecomes
      exact .inl ⟨name, container, value, rfl⟩
    | some k =>
      refine .inr fun key hkey => ?_
      have hfound := hc.tabled.methodUnder_defineAll hc.plain hk hkey (before.map (·.method))
        (after.map (·.method))
      rw [List.length_map] at hfound
      rw [hext.methodUnder_eq (hgrows.definite hdefinite), hid]
      refine hfound.imp_right ?_
      rintro ⟨later, hlater, htakes⟩
      obtain ⟨e, he, rfl⟩ := List.mem_map.mp hlater
      exact ⟨e, he, htakes⟩

/-- A settled run goes on from the catalog of the declarations. -/
theorem extends_of_settleProgram (hdeclared : seeded.Declares c)
    (h : RunM.settleProgram options program (.start c options) = .ok result r) :
    c.Extends r.catalog := by
  have htyper := typerWithin_sound options.depthLimit
  have hP : Enduring (TypingM.typerWithin options.depthLimit) options
      fun _ r => c.Extends r.catalog := {
    propagate := fun hr hp h => hp.trans (hr.propagated h).2.extended
    call := fun hr hs hp h =>
      hp.trans (rebindCall_ok htyper hr hs List.mem_cons_self h).2.2.toRetains.extended
    refresh := fun hr hp h => hp.trans (hr.refreshed h).2.extended }
  exact (settleProgram_endures hdeclared hP (fun _ _ hl => hl.toRetains.extended) h).2.2

theorem early_seeded : seeded.Early :=
  ⟨elementary_seeded.sound, elementary_seeded.plain, tabled_seeded⟩

/-- Typing the expressions of a program opens what the names mean before. -/
theorem openProgram_opens (hdeclared : seeded.Declares c) {nodes : Node × List Opening}
    {opened : List Opening} {s : Typing}
    (hopened : openings c.nestedType [] .main program = some opened)
    (h : TypingM.openProgram options.depthLimit program ⟨.empty, .start c options⟩ = .ok nodes s) :
    nodes.2 = opened := by
  have hmain : c.Definite .main := hdeclared.sound.builtin (by decide)
  have hstart : Typing.Continues c [] ⟨.main, .main, none, true, []⟩
      ⟨.empty, .start c options⟩ :=
    ⟨⟨.start hdeclared options, .empty _⟩, ⟨hmain, hmain, fun _ hbody => by cases hbody⟩, hmain,
      .refl c, .refl c⟩
  cases hdepth : options.depthLimit with
  | zero =>
    rw [hdepth] at h
    cases h
  | succ depth =>
    rw [hdepth] at h
    exact openNodes_opens hdeclared.sound (typerWithin_sound depth)
      (typerWithin_alike (Nat.le_refl depth)) hstart program hopened h

/-- If a check succeeds, a class or module is opened with the same type when methods are declared
and when expressions are typed, and that is the type that the type pass has opened, unless a record
has taken over its name or that of what it stands in. Every method stands where its text does. -/
theorem passes_agree (h : check program options = .ok checked) :
    ∃ p, passes program options = some p ∧ p.typed = p.reopened ∧
      List.Forall₂ (Opening.Agrees p.displaced) p.opened p.reopened ∧
      ∀ before d after, p.definitions = before ++ d :: after →
        d.Stands checked.catalog after := by
  obtain ⟨result, r, hsettled, rfl⟩ := check_eq_ok_iff.mp h
  obtain ⟨u, c, hdeclare, hsettle, -⟩ := settledRun_eq_some_iff.mp hsettled
  have hdeclared := DeclareM.declareProgram_declares hdeclare
  -- the three passes of the check, and what they open
  obtain ⟨_, c₁, htypes, hmethods⟩ := bind_ok.mp hdeclare
  obtain ⟨n, r₁, htyped, -⟩ := bind_ok.mp hsettle
  obtain ⟨s, htyped, -⟩ := inFreshScopes_ok htyped
  rw [typePass_eq []] at htypes
  rw [methodPass_eq []] at hmethods
  rw [typerWithin_eq] at htyped
  obtain ⟨types, htypes, -⟩ := functor_map_ok.mp htypes
  obtain ⟨methods, hmethods, -⟩ := functor_map_ok.mp hmethods
  obtain ⟨nodes, htyped, -⟩ := functor_map_ok.mp htyped
  have hmain : seeded.Definite .main := early_seeded.sound.builtin (by decide)
  have hplaces := DeclareM.places_openTypes early_seeded hmain program htypes
  have hmain₁ := hplaces.declares.definite hmain
  obtain ⟨hopened, hdefines⟩ : openings c₁.nestedType [] .main program = some methods.1 ∧
      DeclareM.Defines c₁ [] methods.2 c :=
    DeclareM.defines_openMethods hplaces.early hmain₁ program hmethods
  have hends : DeclareM.Ends c₁ types.2 c₁.nestedType := by
    refine ⟨fun _ _ _ _ ht => .inl ht, fun scope name _ hnone => ?_⟩
    unfold nestedType tableOf
    rw [hnone]
    rfl
  have hnested : c.nestedType = c₁.nestedType := by
    rw [hdefines.eq]
    exact funext fun scope => funext fun name =>
      nestedType_defineAll c₁ _ scope name
  have hext := (extends_of_settleProgram hdeclared hsettle).trans
    (settledRun_ok hsettled).1.finished.2
  refine ⟨⟨types.1, types.2, methods.1, methods.2, nodes.2⟩, ?_, ?_, ?_, ?_⟩
  · unfold passes
    rw [htypes]
    dsimp only
    rw [hmethods]
    dsimp only
    rw [htyped]
  · exact openProgram_opens hdeclared (hnested ▸ hopened) htyped
  · exact DeclareM.agrees_openTypes early_seeded hmain program htypes (List.Subset.refl _) hends
      (fun _ => ⟨rfl, rfl⟩) hopened
  · exact fun before d after hsplit => hdefines.stands hplaces.early hext hsplit

/-- Where nothing is displaced, what is opened again is what has been opened. -/
theorem eq_of_agrees {opened reopened : List Opening}
    (h : List.Forall₂ (Opening.Agrees []) opened reopened) : reopened = opened := by
  induction h with
  | nil => rfl
  | cons hfirst _ ih => exact congrArg₂ List.cons (hfirst.2 fun _ _ => List.not_mem_nil) ih

section
open Sample

/-- A class that is opened twice, with a module in it and a method that is defined twice. -/
def openedTwice : Expr := lines [
  plainClass "Foo" [
    method "f" [("x", none)] int,
    .moduleDef mark "Inner" (lines [method "g" [] int])],
  plainClass "Foo" [method "f" [("y", none)] double]]

/-- A class whose name a record takes over. -/
def takenOver : Expr := lines [
  plainClass "Foo" [method "f" [] int],
  .recordDef mark "Foo" [("x", .path ["Int"])]]

end

theorem openedTwice_opens : (settledRun openedTwice ⟨100, 5, 8, 5⟩).isSome = true ∧
    (passes openedTwice ⟨100, 5, 8, 5⟩).any (fun p => p.displaced.isEmpty &&
      p.opened.length == 3 && p.definitions.length == 3) = true := by
  decide +kernel

/-- Every pass opens the class twice, and the module, with the same types. The method that is
defined last is found under its key. -/
theorem passes_agree_openedTwice : ∃ checked p,
    check openedTwice ⟨100, 5, 8, 5⟩ = .ok checked ∧
      passes openedTwice ⟨100, 5, 8, 5⟩ = some p ∧ p.opened.length = 3 ∧
      p.reopened = p.opened ∧ p.typed = p.opened ∧
      ∃ d ∈ p.definitions, d.Stands checked.catalog [] := by
  obtain ⟨hsettled, hpasses⟩ := openedTwice_opens
  obtain ⟨⟨n, r⟩, hsettled⟩ := Option.isSome_iff_exists.mp hsettled
  obtain ⟨p, hp, hany⟩ := Option.any_eq_true _ _ |>.mp hpasses
  simp only [Bool.and_eq_true, List.isEmpty_iff, beq_iff_eq] at hany
  obtain ⟨⟨hdisplaced, hopened⟩, hdefined⟩ := hany
  have hcheck := check_eq_ok_iff.mpr ⟨n, r, hsettled, rfl⟩
  obtain ⟨p', hp', htyped, hagrees, hstands⟩ := passes_agree hcheck
  cases hp.symm.trans hp'
  rw [hdisplaced] at hagrees
  have hreopened := eq_of_agrees hagrees
  obtain hnil | ⟨before, d, hlast⟩ := List.eq_nil_or_concat' p.definitions
  · rw [hnil] at hdefined
    cases hdefined
  · refine ⟨_, p, hcheck, hp, hopened, hreopened, htyped.trans hreopened, d, ?_,
      hstands before d [] hlast⟩
    rw [hlast]
    exact List.mem_append_right _ List.mem_cons_self

theorem takenOver_displaces : (settledRun takenOver ⟨100, 5, 8, 5⟩).isSome = true ∧
    (passes takenOver ⟨100, 5, 8, 5⟩).any (fun p => p.opened != p.reopened) = true := by
  decide +kernel

/-- A record that takes over the name of a class also gets its methods. -/
theorem passes_disagree :
    ¬ ∀ program options checked p, check program options = .ok checked →
      passes program options = some p → p.opened = p.reopened := by
  intro hall
  obtain ⟨hsettled, hpasses⟩ := takenOver_displaces
  obtain ⟨⟨n, r⟩, hsettled⟩ := Option.isSome_iff_exists.mp hsettled
  obtain ⟨p, hp, hany⟩ := Option.any_eq_true _ _ |>.mp hpasses
  have hcheck := check_eq_ok_iff.mpr ⟨n, r, hsettled, rfl⟩
  exact bne_iff_ne.mp hany (hall _ _ _ p hcheck hp)

end FlowTyping
