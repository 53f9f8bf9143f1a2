import Mathlib.Logic.Equiv.Basic
import FlowTyping.Proofs.Catalog.Callable
import FlowTyping.Proofs.Catalog.Indexing
import FlowTyping.Proofs.Catalog.Outline

/-
  Definitions with other handles

  A call looks definitions up by name and key, compares their parameters and
  shows their texts; it never looks at their handles. So in a catalog that has
  the same definitions under other handles, in tables that have the names in
  another order, it selects the definition that is the same (`Renumbers.select`).

  Two methods can be declared in either order unless one table gets both under
  one name (`renumbers_swap`), and a method before or after any number of others
  of which that holds (`renumbers_move`).
-/
namespace FlowTyping

open Catalog

/-- A list without repetitions keeps its order when its items are renamed. -/
theorem eraseDups_map {α β : Type} [DecidableEq α] [DecidableEq β] {f : α → β}
    (hf : Function.Injective f) (l : List α) : (l.map f).eraseDups = l.eraseDups.map f := by
  generalize hsize : l.length = size
  induction size using Nat.strongRecOn generalizing l with
  | ind size ih =>
    cases l with
    | nil => rfl
    | cons a rest =>
      have hfilter : (rest.map f).filter (fun b => !b == f a) =
          (rest.filter fun b => !b == a).map f := by
        rw [List.filter_map]
        refine congrArg (List.map f) (List.filter_congr fun b _ => ?_)
        rw [Function.comp_apply, Bool.beq_eq_decide_eq, Bool.beq_eq_decide_eq]
        simp only [hf.eq_iff]
      rw [List.map_cons, List.eraseDups_cons, List.eraseDups_cons, List.map_cons, hfilter]
      refine congrArg _ (ih _ ?_ _ rfl)
      rw [← hsize]
      exact Nat.lt_succ_of_le (List.length_filter_le _ _)

/-- The handles of methods in one catalog, each with that of the same method in another. -/
abbrev Renumbering := Equiv.Perm MethodHandle

namespace Renumbering

variable (σ : Renumbering)

/-- The definitions of one name under the other handles. -/
def overloads (table : Table MethodKey MethodHandle) : Table MethodKey MethodHandle :=
  ⟨table.entries.map fun entry => (entry.1, σ entry.2)⟩

def miss : Miss → Miss
  | .undefined => .undefined
  | .inapplicable ms => .inapplicable (ms.map σ)
  | .tied ms => .tied (ms.map σ)

def verdict : Except Miss MethodHandle → Except Miss MethodHandle
  | .ok m => .ok (σ m)
  | .error m => .error (σ.miss m)

def dispatch : Dispatch → Dispatch
  | .method owner id => .method owner (σ id)
  | .construct t => .construct t
  | .miss m => .miss (σ.miss m)

theorem miss_eq_undefined_iff {m : Miss} : σ.miss m = .undefined ↔ m = .undefined := by
  cases m <;> simp [miss]

theorem candidates_miss (m : Miss) : (σ.miss m).candidates = m.candidates.map σ := by
  cases m <;> rfl

end Renumbering

namespace Catalog

variable {c c' d : Catalog} {σ τ : Renumbering}

/-- Two catalogs that have the same definitions under handles of their own. -/
structure Renumbers (σ : Renumbering) (c c' : Catalog) : Prop where
  outline : c'.outline = c.outline
  size : c'.methods.size = c.methods.size
  beyond : ∀ m, c.methods.size ≤ m.index → σ m = m
  method : ∀ m, c'.method (σ m) = c.method m
  overloads : ∀ k name, (c'.classTable k).methods.get? name =
    ((c.classTable k).methods.get? name).map σ.overloads

theorem overloads_refl (table : Table MethodKey MethodHandle) :
    Renumbering.overloads (.refl _) table = table := by
  obtain ⟨entries⟩ := table
  exact congrArg Table.mk (List.map_id entries)

theorem overloads_trans (table : Table MethodKey MethodHandle) :
    Renumbering.overloads (σ.trans τ) table = Renumbering.overloads τ (σ.overloads table) :=
  congrArg Table.mk (by rw [Renumbering.overloads, List.map_map]; rfl)

/-- The most specific ones of some definitions are the same under other handles. -/
theorem mostSpecific_map (houtline : c'.outline = c.outline)
    (hmethod : ∀ m, c'.method (σ m) = c.method m) (receiver : Ty) (candidates : List MethodHandle) :
    c'.mostSpecific receiver (candidates.map σ) = (c.mostSpecific receiver candidates).map σ := by
  rw [mostSpecific, mostSpecific, List.filter_map]
  refine congrArg (List.map σ) (List.filter_congr fun m _ => ?_)
  rw [Function.comp_apply, List.all_map]
  refine congrArg (List.all _) (funext fun other => ?_)
  rw [Function.comp_apply, moreGeneral_of_outline houtline (hmethod other) (hmethod m),
    Bool.beq_eq_decide_eq, Bool.beq_eq_decide_eq]
  simp only [σ.injective.eq_iff]

namespace Renumbers

theorem refl (c : Catalog) : c.Renumbers (.refl _) c where
  outline := rfl
  size := rfl
  beyond _ _ := rfl
  method _ := rfl
  overloads k name := by
    rw [funext overloads_refl]
    exact Option.map_id'.symm

theorem trans (h₁ : c.Renumbers σ c') (h₂ : c'.Renumbers τ d) : c.Renumbers (σ.trans τ) d where
  outline := h₂.outline.trans h₁.outline
  size := h₂.size.trans h₁.size
  beyond m hm := by
    rw [Equiv.trans_apply, h₁.beyond m hm]
    exact h₂.beyond m (h₁.size ▸ hm)
  method m := (h₂.method (σ m)).trans (h₁.method m)
  overloads k name := by
    rw [h₂.overloads, h₁.overloads, Option.map_map]
    exact congrArg (Option.map · _) (funext fun table => (overloads_trans table).symm)

/-! ## Selecting a definition -/

theorem definitions_overloads (table : Table MethodKey MethodHandle) (keep : MethodKey → Bool) :
    definitions (σ.overloads table) keep = (definitions table keep).map σ := by
  have hkept : ((σ.overloads table).entries.filter fun entry => keep entry.1).map (·.2) =
      ((table.entries.filter fun entry => keep entry.1).map (·.2)).map σ := by
    rw [Renumbering.overloads, List.filter_map, List.map_map, List.map_map]
    rfl
  rw [definitions, definitions, hkept, eraseDups_map σ.injective]

theorem selectAmong (h : c.Renumbers σ c') (q : Query) (table : Table MethodKey MethodHandle) :
    c'.selectAmong q (σ.overloads table) = σ.verdict (c.selectAmong q table) := by
  unfold Catalog.selectAmong
  rw [fits_of_outline h.outline, definitions_overloads]
  cases definitions table (c.fits q) with
  | nil =>
    dsimp only [List.map_nil]
    rw [definitions_overloads, definitions_overloads, List.isEmpty_map]
    cases (definitions table _).isEmpty <;> rfl
  | cons m rest =>
    have hspecific := mostSpecific_map h.outline h.method q.receiver (m :: rest)
    rw [List.map_cons] at hspecific ⊢
    dsimp only
    rw [hspecific]
    rcases c.mostSpecific q.receiver (m :: rest) with _ | ⟨best, _ | ⟨other, others⟩⟩ <;> rfl

theorem firstSelected_map (verdicts : List (Except Miss MethodHandle)) :
    firstSelected (verdicts.map σ.verdict) = σ.verdict (firstSelected verdicts) := by
  induction verdicts with
  | nil => rfl
  | cons v rest ih =>
    cases v with
    | ok m => rfl
    | error miss =>
      show firstSelected (.error (σ.miss miss) :: rest.map σ.verdict) = _
      rw [firstSelected, firstSelected, ih]
      cases firstSelected rest <;> rfl

/-- A call selects the definition that is the same. -/
theorem select (h : c.Renumbers σ c') (owner : Ty) (q : Query) :
    c'.select owner q = σ.verdict (c.select owner q) := by
  have hverdicts : c'.verdicts owner q = (c.verdicts owner q).map σ.verdict := by
    rw [verdicts, verdicts, searchOrder_of_outline h.outline, List.map_filterMap]
    refine List.filterMap_congr fun t _ => ?_
    rw [tableOf, tableOf, cls?_of_outline h.outline]
    cases c.cls? t with
    | none => rfl
    | some k =>
      show ((c'.classTable k).methods.get? q.name).map _ =
        (((c.classTable k).methods.get? q.name).map _).map _
      rw [h.overloads, Option.map_map, Option.map_map]
      exact congrArg (Option.map · _) (funext (h.selectAmong q))
  rw [Catalog.select, Catalog.select, hverdicts, firstSelected_map]

theorem methodText (h : c.Renumbers σ c') (m : MethodHandle) :
    c'.methodText (σ m) = c.methodText m := by
  unfold Catalog.methodText
  dsimp only
  rw [h.method, ← memberName_outline c', ← funext (parameterText_outline c'), h.outline,
    memberName_outline, funext (parameterText_outline c)]

theorem missError (h : c.Renumbers σ c') (owner : Ty) (name : String) (arguments : List Ty)
    (miss : Miss) (place : Place) :
    c'.missError owner name arguments (σ.miss miss) place =
      c.missError owner name arguments miss place := by
  have htexts : (σ.miss miss).candidates.map c'.methodText = miss.candidates.map c.methodText := by
    rw [Renumbering.candidates_miss, List.map_map]
    exact congrArg (List.map · _) (funext h.methodText)
  unfold Catalog.missError
  rw [htexts, ← funext (display_outline c'), h.outline, funext (display_outline c)]
  cases miss <;> rfl

/-- A call does the same. -/
theorem dispatch (h : c.Renumbers σ c') {call call' : CallSite} (hname : call'.name = call.name)
    (hblock : call'.block.isSome = call.block.isSome)
    (hreceiver : call'.receiver.isNone = call.receiver.isNone) (owner : Ty) (arguments : List Ty) :
    c'.dispatch call' owner arguments = σ.dispatch (c.dispatch call owner arguments) := by
  unfold Catalog.dispatch
  dsimp only
  rw [hname, hblock, hreceiver, h.select, h.select, ← constructed_outline c', h.outline,
    constructed_outline]
  cases c.select owner ⟨call.name, arguments, call.block.isSome, owner⟩ with
  | ok id => rfl
  | error miss =>
    have hmiss : ∀ (made : Option Ty) (miss : Miss),
        (if call.name = "new" ∧ σ.miss miss = .undefined then
          made.elim (.miss (σ.miss miss)) Dispatch.construct else .miss (σ.miss miss)) =
        σ.dispatch (if call.name = "new" ∧ miss = .undefined then
          made.elim (.miss miss) Dispatch.construct else .miss miss) := by
      intro made miss
      simp only [σ.miss_eq_undefined_iff]
      split
      · cases made <;> rfl
      · rfl
    generalize c.constructed owner = made
    by_cases htop : call.receiver.isNone = true ∧ owner ≠ .main
    · simp only [if_pos htop]
      cases c.select .main ⟨call.name, arguments, call.block.isSome, .main⟩ with
      | ok id => rfl
      | error top =>
        cases miss with
        | undefined => cases made; exacts [hmiss none top, hmiss (some _) top]
        | inapplicable ms => cases made; exacts [hmiss none (.inapplicable ms), hmiss (some _) (.inapplicable ms)]
        | tied ms => cases made; exacts [hmiss none (.tied ms), hmiss (some _) (.tied ms)]
    · simp only [if_neg htop]
      cases miss with
      | undefined => cases made; exacts [hmiss none .undefined, hmiss (some _) .undefined]
      | inapplicable ms => cases made; exacts [hmiss none (.inapplicable ms), hmiss (some _) (.inapplicable ms)]
      | tied ms => cases made; exacts [hmiss none (.tied ms), hmiss (some _) (.tied ms)]

end Renumbers

/-! ## The order of declarations -/

/-- The definitions of one name in one class table. -/
def overloadsAt (c : Catalog) (k : ClassHandle) (name : String) :
    Option (Table MethodKey MethodHandle) :=
  (c.classTable k).methods.get? name

/-- The definitions of a name with one more. -/
def withOverload (former : Option (Table MethodKey MethodHandle)) (m : Method)
    (id : MethodHandle) : Table MethodKey MethodHandle :=
  (former.getD .empty).putAll ((methodKeys m).map fun key => (key, id))

/-- Whether a method is entered in a class table under a name. -/
def Receives (c : Catalog) (m : Method) (k : ClassHandle) (name : String) : Prop :=
  c.cls? m.owner = some k ∧ k.index < c.classes.size ∧ name = m.name

instance (c : Catalog) (m : Method) (k : ClassHandle) (name : String) :
    Decidable (c.Receives m k name) := inferInstanceAs (Decidable (_ ∧ _ ∧ _))

theorem receives_congr (h : c'.outline = c.outline) (m : Method) (k : ClassHandle) (name : String) :
    c'.Receives m k name ↔ c.Receives m k name := by
  have hsize : c'.classes.size = c.classes.size := by
    have := congrArg (·.classes.size) h
    rwa [outline, outline, Array.size_map, Array.size_map] at this
  unfold Receives
  rw [cls?_of_outline h, hsize]

theorem overloadsAt_defineMethod (c : Catalog) (m : Method) (k : ClassHandle) (name : String) :
    (c.defineMethod m).2.overloadsAt k name =
      if c.Receives m k name then some (withOverload (c.overloadsAt k name) m ⟨c.methods.size⟩)
      else c.overloadsAt k name := by
  unfold defineMethod
  dsimp only
  cases howner : c.cls? m.owner with
  | none =>
    rw [if_neg fun h => by cases howner.symm.trans h.1]
    rfl
  | some l =>
    unfold overloadsAt
    dsimp only
    rw [classTable_modifyClass]
    by_cases hkl : k = l ∧ l.index < c.classes.size
    · obtain ⟨rfl, hlt⟩ := hkl
      rw [if_pos ⟨rfl, hlt⟩]
      dsimp only [enterMethod]
      rw [Table.get?_put]
      by_cases hname : name = m.name
      · rw [if_pos hname, if_pos ⟨howner, hlt, hname⟩, hname]
        rfl
      · rw [if_neg hname, if_neg fun h => hname h.2.2]
        rfl
    · rw [if_neg hkl, if_neg]
      · rfl
      · rintro ⟨hk, hlt, -⟩
        obtain rfl := Option.some.inj (howner.symm.trans hk)
        exact hkl ⟨rfl, hlt⟩

theorem method_defineMethod (c : Catalog) (m : Method) (id : MethodHandle) :
    (c.defineMethod m).2.method id = if id.index = c.methods.size then m else c.method id := by
  unfold method
  rw [methods_defineMethod, Array.getElem?_push]
  split <;> rfl

theorem outline_defineMethod (c : Catalog) (m : Method) :
    (c.defineMethod m).2.outline = c.outline := by
  unfold defineMethod
  dsimp only
  cases c.cls? m.owner with
  | none => rfl
  | some k =>
    unfold outline modifyClass
    dsimp only
    congr 1
    refine Array.ext (by simp) fun i h₁ h₂ => ?_
    rw [Array.getElem_map, Array.getElem_map, Array.getElem_modify]
    split <;> rfl

theorem outline_defineAll (c : Catalog) (ms : List Method) : (c.defineAll ms).outline = c.outline :=
  List.foldlRecOn ms _ (motive := fun d : Catalog => d.outline = c.outline) rfl
    fun d hd m _ => (outline_defineMethod d m).trans hd

theorem overloads_put (table : Table MethodKey MethodHandle) (key : MethodKey) (id : MethodHandle) :
    σ.overloads (table.put key id) = (σ.overloads table).put key (σ id) := by
  obtain ⟨entries⟩ := table
  refine congrArg Table.mk ?_
  show (Table.putEntry key id entries).map _ = Table.putEntry key (σ id) (entries.map _)
  induction entries with
  | nil => rfl
  | cons entry rest ih =>
    rw [Table.putEntry, List.map_cons, Table.putEntry]
    dsimp only
    split
    · rfl
    · rw [List.map_cons, ih]

theorem overloads_withOverload (former : Option (Table MethodKey MethodHandle)) (m : Method)
    (id : MethodHandle) : σ.overloads (withOverload former m id) =
      withOverload (former.map σ.overloads) m (σ id) := by
  have hputAll : ∀ (keys : List MethodKey) (table : Table MethodKey MethodHandle),
      σ.overloads (table.putAll (keys.map fun key => (key, id))) =
        (σ.overloads table).putAll (keys.map fun key => (key, σ id)) := by
    intro keys
    induction keys with
    | nil => exact fun _ => rfl
    | cons key keys ih =>
      intro table
      refine (ih (table.put key id)).trans ?_
      rw [overloads_put]
      rfl
  cases former <;> exact hputAll _ _

/-- The method that is declared next has the same handle in both catalogs. -/
theorem method_defineMethod_renumbered (hsize : c'.methods.size = c.methods.size)
    (hlast : σ ⟨c.methods.size⟩ = ⟨c.methods.size⟩) (hmethod : ∀ id, c'.method (σ id) = c.method id)
    (m : Method) (id : MethodHandle) :
    (c'.defineMethod m).2.method (σ id) = (c.defineMethod m).2.method id := by
  rw [method_defineMethod, method_defineMethod, hsize, hmethod]
  have hiff : (σ id).index = c.methods.size ↔ id.index = c.methods.size := by
    constructor
    · intro hid
      have hsame : σ id = σ ⟨c.methods.size⟩ := by
        rw [hlast]
        exact congrArg MethodHandle.mk hid
      exact congrArg MethodHandle.index (σ.injective hsame)
    · intro hid
      have hsame : id = ⟨c.methods.size⟩ := congrArg MethodHandle.mk hid
      rw [hsame, hlast]
  simp only [hiff]

/-- What was declared before and after keeps its place. -/
theorem Renumbers.defineMethod (h : c.Renumbers σ c') (m : Method) :
    (c.defineMethod m).2.Renumbers σ (c'.defineMethod m).2 := by
  have hlast : σ ⟨c.methods.size⟩ = ⟨c.methods.size⟩ := h.beyond _ (Nat.le_refl _)
  refine ⟨?_, ?_, fun id hid => ?_, method_defineMethod_renumbered h.size hlast h.method m,
    fun k name => ?_⟩
  · rw [outline_defineMethod, outline_defineMethod, h.outline]
  · rw [methods_defineMethod, methods_defineMethod, Array.size_push, Array.size_push, h.size]
  · rw [methods_defineMethod, Array.size_push] at hid
    exact h.beyond id (Nat.le_of_succ_le hid)
  · show (c'.defineMethod m).2.overloadsAt k name =
      ((c.defineMethod m).2.overloadsAt k name).map σ.overloads
    have hold : c'.overloadsAt k name = (c.overloadsAt k name).map σ.overloads := h.overloads k name
    rw [overloadsAt_defineMethod, overloadsAt_defineMethod, hold, h.size]
    simp only [receives_congr h.outline]
    split
    · rw [Option.map_some, overloads_withOverload, hlast]
    · rfl

theorem Renumbers.defineAll (h : c.Renumbers σ c') (ms : List Method) :
    (c.defineAll ms).Renumbers σ (c'.defineAll ms) := by
  induction ms generalizing c c' with
  | nil => exact h
  | cons m ms ih => exact ih (h.defineMethod m)

/-- Class tables have handles of methods that are entered. -/
def Numbered (c : Catalog) : Prop :=
  ∀ k name table, c.overloadsAt k name = some table →
    ∀ entry ∈ table.entries, entry.2.index < c.methods.size

theorem Callable.numbered (hc : c.Callable) : c.Numbered :=
  fun k _ _ htable entry hentry =>
    (hc.keys k _ (Table.mem_of_get? htable) entry hentry).1

theorem Numbered.defineMethod (hc : c.Numbered) (m : Method) : (c.defineMethod m).2.Numbered := by
  intro k name table htable entry hentry
  rw [methods_defineMethod, Array.size_push]
  rw [overloadsAt_defineMethod] at htable
  split at htable
  · cases htable
    rcases Table.mem_putAll hentry with hnew | hold
    · obtain ⟨key, -, rfl⟩ := List.mem_map.mp hnew
      exact Nat.lt_succ_self _
    · cases hformer : c.overloadsAt k name with
      | none =>
        rw [hformer] at hold
        cases hold
      | some former =>
        rw [hformer] at hold
        exact Nat.lt_succ_of_lt (hc k name former hformer entry hold)
  · exact Nat.lt_succ_of_lt (hc k name table htable entry hentry)

theorem Numbered.defineAll (hc : c.Numbered) (ms : List Method) : (c.defineAll ms).Numbered :=
  List.foldlRecOn ms _ (motive := Numbered) hc fun _ hd m _ => hd.defineMethod m

/-- Two methods of which one table gets both, under one name. -/
def Clash (c : Catalog) (m n : Method) : Prop :=
  m.name = n.name ∧ ∃ k, c.cls? m.owner = some k ∧ c.cls? n.owner = some k

theorem clash_congr (h : c'.outline = c.outline) {m n : Method} (hclash : c'.Clash m n) :
    c.Clash m n := by
  obtain ⟨hname, k, hm, hn⟩ := hclash
  rw [cls?_of_outline h] at hm hn
  exact ⟨hname, k, hm, hn⟩

/-- The exchange of the handles of two methods that are declared one after the other. -/
def exchange (c : Catalog) : Renumbering := Equiv.swap ⟨c.methods.size⟩ ⟨c.methods.size + 1⟩

theorem exchange_first (c : Catalog) : c.exchange ⟨c.methods.size⟩ = ⟨c.methods.size + 1⟩ :=
  Equiv.swap_apply_left _ _

theorem exchange_second (c : Catalog) : c.exchange ⟨c.methods.size + 1⟩ = ⟨c.methods.size⟩ :=
  Equiv.swap_apply_right _ _

theorem exchange_other {id : MethodHandle} (h₁ : id.index ≠ c.methods.size)
    (h₂ : id.index ≠ c.methods.size + 1) : c.exchange id = id :=
  Equiv.swap_apply_of_ne_of_ne (fun h => h₁ (congrArg MethodHandle.index h))
    fun h => h₂ (congrArg MethodHandle.index h)

theorem size_methods_defineMethod (c : Catalog) (m : Method) :
    (c.defineMethod m).2.methods.size = c.methods.size + 1 := by
  rw [methods_defineMethod, Array.size_push]

/-- Two methods that are declared in either order have each other's handles. -/
theorem method_exchange (c : Catalog) (m n : Method) (id : MethodHandle) :
    ((c.defineMethod n).2.defineMethod m).2.method (c.exchange id) =
      ((c.defineMethod m).2.defineMethod n).2.method id := by
  rw [method_defineMethod, method_defineMethod, method_defineMethod, method_defineMethod,
    size_methods_defineMethod, size_methods_defineMethod]
  by_cases hfirst : id.index = c.methods.size
  · obtain rfl : id = ⟨c.methods.size⟩ := congrArg MethodHandle.mk hfirst
    rw [exchange_first]
    simp
  · by_cases hsecond : id.index = c.methods.size + 1
    · obtain rfl : id = ⟨c.methods.size + 1⟩ := congrArg MethodHandle.mk hsecond
      rw [exchange_second]
      simp
    · rw [exchange_other hfirst hsecond, if_neg hsecond, if_neg hfirst, if_neg hsecond, if_neg hfirst]

/-- Two methods can be declared in either order, unless one table gets both under one name. -/
theorem renumbers_swap (hc : c.Numbered) {m n : Method} (hfree : ¬ c.Clash m n) :
    ((c.defineMethod m).2.defineMethod n).2.Renumbers c.exchange
      ((c.defineMethod n).2.defineMethod m).2 := by
  have hreceives : ∀ x y k name, (c.defineMethod x).2.Receives y k name ↔ c.Receives y k name :=
    fun x => receives_congr (outline_defineMethod c x)
  refine ⟨?_, ?_, fun id hid => ?_, method_exchange c m n, fun k name => ?_⟩
  · rw [outline_defineMethod, outline_defineMethod, outline_defineMethod, outline_defineMethod]
  · simp only [size_methods_defineMethod]
  · rw [size_methods_defineMethod, size_methods_defineMethod] at hid
    exact exchange_other (by omega) (by omega)
  · show ((c.defineMethod n).2.defineMethod m).2.overloadsAt k name =
      (((c.defineMethod m).2.defineMethod n).2.overloadsAt k name).map _
    -- what was there has earlier handles
    have hold : (c.overloadsAt k name).map (Renumbering.overloads c.exchange) = c.overloadsAt k name := by
      cases htable : c.overloadsAt k name with
      | none => rfl
      | some table =>
        obtain ⟨entries⟩ := table
        have hmap : entries.map (fun entry => (entry.1, c.exchange entry.2)) = entries := by
          refine List.map_congr_left (fun entry hentry => ?_) |>.trans (List.map_id _)
          have hlt := hc k name _ htable entry hentry
          exact Prod.ext rfl (exchange_other (by omega) (by omega))
        exact congrArg (fun entries => some (Table.mk entries)) hmap
    rw [overloadsAt_defineMethod, overloadsAt_defineMethod, overloadsAt_defineMethod,
      overloadsAt_defineMethod, size_methods_defineMethod, size_methods_defineMethod]
    simp only [hreceives]
    by_cases hm : c.Receives m k name
    · have hn : ¬ c.Receives n k name := fun hn =>
        hfree ⟨hm.2.2.symm.trans hn.2.2, k, hm.1, hn.1⟩
      rw [if_pos hm, if_neg hn, if_neg hn, if_pos hm, Option.map_some, overloads_withOverload, hold,
        exchange_first]
    · rw [if_neg hm, if_neg hm]
      by_cases hn : c.Receives n k name
      · rw [if_pos hn, if_pos hn, Option.map_some, overloads_withOverload, hold, exchange_second]
      · rw [if_neg hn, if_neg hn, hold]

/-- A method can be declared before or after others that do not clash with it. -/
theorem renumbers_move (hc : c.Numbered) {m : Method} {ms : List Method}
    (hfree : ∀ n ∈ ms, ¬ c.Clash n m) :
    ∃ σ, (c.defineAll (ms ++ [m])).Renumbers σ (c.defineAll (m :: ms)) := by
  induction ms generalizing c with
  | nil => exact ⟨_, .refl _⟩
  | cons n ms ih =>
    obtain ⟨σ, h⟩ := ih (hc.defineMethod n) fun other hother hclash =>
      hfree other (List.mem_cons_of_mem n hother) (clash_congr (outline_defineMethod c n) hclash)
    have hswap := renumbers_swap hc (hfree n List.mem_cons_self)
    exact ⟨_, h.trans (hswap.defineAll ms)⟩

end Catalog

end FlowTyping
