import FlowTyping.Proofs.Inference.Binding

/-
  What `new` makes

  A call of `new` on a metaclass without a definition of it makes a value of the
  metaclass's subject: the initializer that the subject has for the arguments
  was instantiated, and the call has the subject among its types. For a generic
  class it has a specialization (`new_constructs`). But generic values are known
  by the call and its arguments alone. Where a call is on several generic
  classes, there is one value for all of them, of the class that came first
  (`new_conflates`).
-/
namespace FlowTyping

open Catalog

namespace Run

variable {r : Run} {due : List Task} {site : Site} {n : Node} {t own owner type : Ty}
  {arguments : List Ty}

/-- A node that holds a generic value has a specialization of the value's class as its type. -/
theorem Sound.specialization_of_built (hr : r.Sound due) (hb : r.BuiltAs site arguments n t own) :
    r.Standing n ∧ ∃ u, r.catalog.Specializes u t ∧ u ∈ r.store.membersAt n := by
  obtain ⟨q, p, hp, rfl, htemplate⟩ := hb.held
  obtain ⟨v, q', u, hline⟩ := hr.held q p hp
  obtain ⟨w, hw, hspecializes⟩ := hline.specializes
  have hlive := Standing.isSuperseded_of_target? hline.target
  -- the class of the value is a template, so it is its own template
  obtain rfl : t = w := Option.some.inj
    (hb.template.templateOf_eq.symm.trans ((congrArg _ htemplate).symm.trans hw))
  refine ⟨⟨v, hline.type, ?_⟩, u, hspecializes, Store.mem_membersAt.mpr ⟨v, hline.type, ?_⟩⟩
  · unfold isSuperseded
    rw [show r.catalog.shape v = .provisional q' from hline.shape]
    exact hlive
  · obtain ⟨o', ho', -⟩ := hspecializes
    have htarget : r.catalog.resolve v = u := resolve_of_live hline.shape hline.target
    show u ∈ r.catalog.members v
    unfold members resolvedShape
    rw [htarget, show r.catalog.shape u = .object o' from ho']
    exact List.mem_singleton_self u

/-- Metaclasses make values of object types; both stand for themselves alone. -/
theorem members_of_constructed {c : Catalog} (howner : c.Definite owner)
    (h : c.constructed owner = some type) :
    c.members owner = [owner] ∧ c.members type = [type] := by
  have htype := definite_of_constructed h
  unfold constructed at h
  split at h
  · next k u hu =>
    split at h
    · next o ho =>
      cases h
      exact ⟨members_of_single ⟨howner, by rw [hu]; rfl⟩, members_of_single ⟨htype, by rw [ho]; rfl⟩⟩
    · cases h
  · cases h

/-- `new` on a metaclass that does not define it makes a value. -/
theorem dispatch_new {c : Catalog} {call : CallSite} (hname : call.name = "new")
    (hreceiver : call.receiver.isSome = true) (ht : c.constructed owner = some type)
    (hmiss : c.select owner ⟨call.name, arguments, call.block.isSome, owner⟩ = .error .undefined) :
    c.dispatch call owner arguments = .construct type := by
  unfold dispatch
  dsimp only
  rw [hmiss]
  dsimp only
  have hnot : ¬ (call.receiver.isNone = true ∧ owner ≠ .main) := by
    rw [Option.isNone_eq_false_iff.mpr hreceiver]
    exact fun h => by cases h.1
  rw [if_neg hnot]
  dsimp only
  rw [if_pos ⟨hname, rfl⟩, ht]

/-- A call of `new` whose receiver and arguments have types can be one on `owner`, the metaclass of
an object type without a definition of `new`. -/
structure News (r : Run) (site : Site) (owner type : Ty) (arguments : List Ty) : Prop where
  name : (r.site site).name = "new"
  receiver : (r.site site).receiver.isSome = true
  typed : r.Typed site
  choice : r.Chooses (r.site site) owner arguments
  subject : r.catalog.constructed owner = some type
  undefined : r.catalog.select owner
    ⟨(r.site site).name, arguments, (r.site site).block.isSome, owner⟩ = .error .undefined

/-- A call has made a value of an object type from some arguments. -/
structure Constructs (r : Run) (site : Site) (owner type : Ty) (arguments : List Ty) : Prop where
  /-- A plain object is initialized, and its type is one of the call. -/
  plain : r.catalog.isGeneric type = false →
    r.Initialized site type arguments ∧ type ∈ r.store.membersAt (r.site site).result
  /-- A generic value of some class is initialized, and a specialization of its class is one of the
  types of the call. -/
  generic : r.catalog.isGeneric type = true → ∃ n t own u,
    r.constructions.get? (site, arguments) = some n ∧ r.BuiltAs site arguments n t own ∧
      r.catalog.Specializes u t ∧ u ∈ r.store.membersAt (r.site site).result ∧
      -- the class is the right one if the receiver is the class itself
      (∀ d, (r.site site).receiver = some d → r.sharedNodes.get? owner = some d → t = type)

end Run

variable {program : Expr} {options : Options} {result d : Node} {r : Run} {site : Site}
  {owner type : Ty} {arguments : List Ty}

/-- A call of `new` on a metaclass that does not define it has made and initialized a value for each
choice of types of its arguments. -/
theorem new_constructs (h : settledRun program options = some (result, r))
    (hs : site.index < r.sites.size) (hnew : r.News site owner type arguments) :
    r.Constructs site owner type arguments := by
  obtain ⟨hr, hquiet⟩ := settledRun_ok h
  obtain ⟨n, hn, hy⟩ := hr.answered hquiet hs hnew.typed hnew.choice
  rw [Run.dispatch_new hnew.name hnew.receiver hnew.subject hnew.undefined] at hy
  have howner := (hnew.choice.definite hr.store.catalog (hr.sites site hs).caller
    fun n _ t ht => hr.store.typed n t ht).1
  obtain ⟨hmeta, hobject⟩ := Run.members_of_constructed howner hnew.subject
  have hplain := (hr.played _ (.result site) ⟨hs, rfl⟩).2.1
  -- the call yields the value that was made first for these arguments, or the node of the class
  rcases hy with ⟨hgeneric, hn'⟩ | ⟨hgeneric, hshared, hinitialized⟩
  · refine ⟨fun hplain => (by rw [hgeneric] at hplain; cases hplain), fun _ => ?_⟩
    obtain ⟨t, own, hb, -⟩ := (hr.built _ n hn').resolve_right (fun h => by cases h)
    obtain ⟨hstanding, u, hu, hmember⟩ := hr.specialization_of_built hb
    refine ⟨n, t, own, u, hn', hb, hu, hr.covers hquiet hplain hn hstanding hmember,
      fun d hd hfixed => ?_⟩
    obtain ⟨-, o, ho, -, hmade⟩ := (hb.made d hd).2 owner hfixed
    rw [hmeta, List.mem_singleton] at ho
    rw [ho, hnew.subject] at hmade
    exact (Option.some.inj hmade).symm
  · refine ⟨fun _ => ⟨hinitialized, ?_⟩, fun hplain => (by rw [hgeneric] at hplain; cases hplain)⟩
    obtain ⟨-, hdefinite, htyped, -⟩ := hr.played n (.shared type) hshared
    refine hr.covers hquiet hplain hn ⟨type, htyped, isSuperseded_of_definite hdefinite⟩
      (Store.mem_membersAt.mpr ⟨type, htyped, ?_⟩)
    show type ∈ r.catalog.members type
    rw [hobject]
    exact List.mem_singleton_self type

/-- The metaclasses without a definition of `new` that a call can be on, each with its subject and
with the types that the arguments can have. -/
def Run.news (r : Run) (site : Site) : List (Ty × Ty × List Ty) :=
  ((r.combinations (r.site site)).getD []).filterMap fun one =>
    match r.catalog.constructed one.1, r.catalog.select one.1
        ⟨(r.site site).name, one.2, (r.site site).block.isSome, one.1⟩ with
    | some type, .error .undefined => some (one.1, type, one.2)
    | _, _ => none

/-- A call of `new` with types for its receiver and arguments. -/
structure Run.CallsNew (r : Run) (site : Site) : Prop where
  entered : site.index < r.sites.size
  name : (r.site site).name = "new"
  receiver : (r.site site).receiver.isSome = true
  typed : r.Typed site

instance (r : Run) (site : Site) : Decidable (r.CallsNew site) :=
  decidable_of_iff (site.index < r.sites.size ∧ (r.site site).name = "new" ∧
      (r.site site).receiver.isSome = true ∧ ∀ n ∈ (r.site site).watched, r.Standing n)
    ⟨fun h => ⟨h.1, h.2.1, h.2.2.1, h.2.2.2⟩, fun h => ⟨h.entered, h.name, h.receiver, h.typed⟩⟩

theorem Run.CallsNew.news (hcalls : r.CallsNew site)
    (h : (owner, type, arguments) ∈ r.news site) : r.News site owner type arguments := by
  obtain ⟨⟨o, choice⟩, hone, heq⟩ := List.mem_filterMap.mp h
  cases hall : r.combinations (r.site site) with
  | none =>
    rw [hall] at hone
    cases hone
  | some all =>
    rw [hall] at hone
    split at heq
    · next u hu hmiss =>
      cases heq
      exact ⟨hcalls.name, hcalls.receiver, hcalls.typed, (Run.mem_combinations hall).mp hone, hu,
        hmiss⟩
    · cases heq

section
open Sample

/-- A class and a generic class, of each of which a value is made. -/
def madeOfEach : Expr := lines [
  plainClass "Cell" [method "initialize" [("x", none)] (setSlot "@value" (var "x"))],
  genericClass "Box" [method "initialize" [("x", none)] (setSlot "@value" (var "x"))],
  send (named "Cell") "new" [int],
  send (named "Box") "new" [int]]

end

theorem madeOfEach_news : (settledRun madeOfEach ⟨100, 5, 8, 5⟩).any (fun (_, r) =>
    (List.range 2).all fun i => r.CallsNew ⟨i⟩ ∧ (r.news ⟨i⟩).isEmpty = false) = true := by
  decide +kernel

/-- Values are made of a class and of a generic class. -/
theorem new_constructs_each : ∃ result r, settledRun madeOfEach ⟨100, 5, 8, 5⟩ = some (result, r) ∧
    ∀ i < 2, ∃ owner type arguments, r.News ⟨i⟩ owner type arguments ∧
      r.Constructs ⟨i⟩ owner type arguments := by
  obtain ⟨⟨result, r⟩, hsettled, hall⟩ := Option.any_eq_true _ _ |>.mp madeOfEach_news
  refine ⟨result, r, hsettled, fun i hi => ?_⟩
  obtain ⟨hcalls, hsome⟩ := of_decide_eq_true (List.all_eq_true.mp hall i (List.mem_range.mpr hi))
  obtain ⟨⟨owner, type, arguments⟩, hmem⟩ := List.exists_mem_of_ne_nil (r.news ⟨i⟩) fun h => by
    rw [h] at hsome
    cases hsome
  have hnew := hcalls.news hmem
  exact ⟨owner, type, arguments, hnew, new_constructs hsettled hcalls.entered hnew⟩

/-! ## Values that are not made -/

section
open Sample

/-- `new` on one of two generic classes. -/
def madeOfEither : Expr := lines [
  genericClass "Foo" [method "initialize" [("x", none)] (setSlot "@v" (var "x"))],
  genericClass "Bar" [method "initialize" [("x", none)] (setSlot "@w" (var "x"))],
  setVar "class" (either (named "Foo") (named "Bar")),
  send (var "class") "new" [int]]

end

/-- Whether a call has no specialization of a generic class that it is on. -/
def Run.conflates (r : Run) (site : Site) : Bool :=
  (r.news site).any fun new => r.catalog.isGeneric new.2.1 &&
    (r.store.membersAt (r.site site).result).all fun u =>
      match r.catalog.shape u with
      | .object o => o.template != some new.2.1
      | _ => true

theorem madeOfEither_conflates : (settledRun madeOfEither ⟨100, 5, 8, 5⟩).any (fun (_, r) =>
    (List.range r.sites.size).any fun i => r.CallsNew ⟨i⟩ ∧ r.conflates ⟨i⟩ = true) = true := by
  decide +kernel

/-- A call that is on several generic classes need not have a specialization of each. -/
theorem new_conflates :
    ¬ ∀ program options result r, settledRun program options = some (result, r) →
      ∀ site : Site, site.index < r.sites.size → ∀ owner type arguments,
        r.News site owner type arguments → r.catalog.isGeneric type = true →
        ∃ u ∈ r.store.membersAt (r.site site).result, r.catalog.Specializes u type := by
  intro hall
  obtain ⟨⟨result, r⟩, hsettled, hany⟩ := Option.any_eq_true _ _ |>.mp madeOfEither_conflates
  obtain ⟨i, -, hi⟩ := List.any_eq_true.mp hany
  obtain ⟨hcalls, hconflates⟩ := of_decide_eq_true hi
  obtain ⟨⟨owner, type, arguments⟩, hmem, hnone⟩ := List.any_eq_true.mp hconflates
  obtain ⟨hgeneric, hnone⟩ := Bool.and_eq_true_iff.mp hnone
  obtain ⟨u, hu, o, ho, htemplate⟩ := hall _ _ result r hsettled ⟨i⟩ hcalls.entered owner type
    arguments (hcalls.news hmem) hgeneric
  have hother := List.all_eq_true.mp hnone u hu
  simp [ho, htemplate] at hother

end FlowTyping
