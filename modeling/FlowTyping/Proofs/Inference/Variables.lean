import FlowTyping.Inference.Check
import FlowTyping.Proofs.Steps
import FlowTyping.Proofs.Table

/-
  Local variables and their scopes

  Typing an expression leaves the scopes around the innermost one as they are,
  and to the innermost one it can only add names, at its end, which had no
  meaning before (`Scopes.Widens`). So each name that means a node goes on to
  mean it. The names that can be added are those that the expression assigns
  outside blocks, declarations and the values of constants (`Expr.named`): a
  block has a scope of its own, declarations and constants are typed with none
  of the variables around them.

  Nothing is assumed of the state, of the way in which bodies are typed, or of
  how the step ends (`names_nodeOf`). An error that a block meets leaves its
  scope in the same way as a result, and there is always one to leave.
-/
namespace FlowTyping

open Steps

/-! ## Names that are added -/

namespace Expr

mutual

/-- The variables that an expression assigns in the scope in which it stands. -/
def named : Expr → List String
  | assign _ (.constant _) _ => []
  | assign _ (.slot _) value => value.named
  | assign _ (.localVar name) value => value.named ++ [name]
  | assignMany _ targets values => namedEach targets values
  | sequence _ items => namedAll items
  | branch _ condition accepted refused =>
    condition.named ++ accepted.named ++ namedOption refused
  | loop _ condition body => condition.named ++ body.named
  | call _ receiver _ arguments _ => namedOption receiver ++ namedAll arguments
  | yielding _ arguments => namedAll arguments
  | returning _ value => namedOption value
  | array _ elements _ => namedAll elements
  | addressOf _ value => value.named
  | _ => []

def namedAll : List Expr → List String
  | [] => []
  | e :: rest => e.named ++ namedAll rest

def namedOption : Option Expr → List String
  | none => []
  | some e => e.named

/-- What an assignment of several values to several targets assigns. The value of a constant is
typed apart. -/
def namedEach : List Target → List Expr → List String
  | targets, [] => targets.filterMap fun
      | .localVar name => some name
      | _ => none
  | [], e :: rest => e.named ++ namedEach [] rest
  | .constant _ :: targets, _ :: rest => namedEach targets rest
  | .slot _ :: targets, e :: rest => e.named ++ namedEach targets rest
  | .localVar name :: targets, e :: rest => e.named ++ name :: namedEach targets rest

end

end Expr

/-- A key that is new comes last. -/
theorem Table.putEntry_of_lookup_none {κ α : Type} [DecidableEq κ] {key : κ}
    {entries : List (κ × α)} (h : entries.lookup key = none) (value : α) :
    putEntry key value entries = entries ++ [(key, value)] := by
  induction entries with
  | nil => rfl
  | cons entry rest ih =>
    have hne : entry.1 ≠ key := fun heq => by
      rw [List.lookup_cons, heq, beq_self_eq_true] at h
      cases h
    have hrest : rest.lookup key = none := by
      rwa [List.lookup_cons, beq_eq_false_iff_ne.mpr (Ne.symm hne)] at h
    rw [putEntry, if_neg hne, ih hrest, List.cons_append]

namespace Scopes

variable {names others : List String} {before mid after : Scopes} {name : String} {n : Node}

/-- Scopes become others by adding names to the innermost one. -/
structure Widens (names : List String) (before after : Scopes) : Prop where
  outer : after.outer = before.outer
  inner : ∃ new : List (String × Node),
    after.inner.entries = before.inner.entries ++ new ∧ (new.map (·.1)).Nodup ∧
      ∀ entry ∈ new, entry.1 ∈ names ∧ before.find entry.1 = none

theorem find_eq (s : Scopes) (name : String) :
    s.find name = (s.inner.get? name).or (s.outer.findSome? (·.get? name)) := by
  unfold find
  rw [List.findSome?_cons]
  cases s.inner.get? name with
  | none => rfl
  | some n => rfl

theorem mem_of_lookup {entries : List (String × Node)} (h : entries.lookup name = some n) :
    (name, n) ∈ entries := Table.mem_of_get? (t := ⟨entries⟩) h

theorem lookup_ne_none {entries : List (String × Node)} (h : name ∈ entries.map (·.1)) :
    entries.lookup name ≠ none := by
  obtain ⟨entry, hmem, rfl⟩ := List.mem_map.mp h
  intro hnone
  exact absurd (List.lookup_eq_none_iff.mp hnone entry hmem) (by simp)

/-- What a name means among scopes to which names were added that meant nothing: what it meant, or
the node that was added. -/
theorem find_of_added {new : List (String × Node)} (houter : after.outer = before.outer)
    (hinner : after.inner.entries = before.inner.entries ++ new)
    (hnew : ∀ entry ∈ new, before.find entry.1 = none) :
    after.find name = (before.find name).or (new.lookup name) := by
  have hget : after.inner.get? name = (before.inner.get? name).or (new.lookup name) := by
    unfold Table.get?
    rw [hinner, List.lookup_append]
  rw [find_eq, find_eq, hget, houter]
  cases hlookup : new.lookup name with
  | none => rw [Option.or_none, Option.or_none]
  | some n =>
    have hnone := hnew _ (mem_of_lookup hlookup)
    rw [find_eq] at hnone
    obtain ⟨hi, ho⟩ := Option.or_eq_none_iff.mp hnone
    rw [hi, ho]
    rfl

namespace Widens

theorem refl (s : Scopes) : Widens names s s :=
  ⟨rfl, [], (List.append_nil _).symm, List.nodup_nil, fun _ h => absurd h List.not_mem_nil⟩

theorem of_eq (h : after = before) : Widens names before after := by
  subst h
  exact refl _

theorem mono (h : Widens names before after) (hsub : names ⊆ others) :
    Widens others before after := by
  obtain ⟨new, hinner, hnodup, hnew⟩ := h.inner
  exact ⟨h.outer, new, hinner, hnodup, fun entry hmem =>
    ⟨hsub (hnew entry hmem).1, (hnew entry hmem).2⟩⟩

/-- A name keeps its meaning. -/
theorem find (h : Widens names before after) (hfind : before.find name = some n) :
    after.find name = some n := by
  obtain ⟨new, hinner, -, hnew⟩ := h.inner
  rw [find_of_added h.outer hinner fun entry hmem => (hnew entry hmem).2, hfind]
  rfl

/-- A name that is not among those that may be added means what it meant, or still nothing. -/
theorem find_of_notMem (h : Widens names before after) (hname : name ∉ names) :
    after.find name = before.find name := by
  obtain ⟨new, hinner, -, hnew⟩ := h.inner
  rw [find_of_added h.outer hinner fun entry hmem => (hnew entry hmem).2]
  cases hlookup : new.lookup name with
  | none => exact Option.or_none
  | some n => exact absurd (hnew _ (mem_of_lookup hlookup)).1 hname

theorem depth (h : Widens names before after) : after.depth = before.depth :=
  congrArg (fun outer => outer.length + 1) h.outer

theorem trans (h : Widens names before mid) (h' : Widens others mid after) :
    Widens (names ++ others) before after := by
  obtain ⟨new, hinner, hnodup, hnew⟩ := h.inner
  obtain ⟨more, hinner', hnodup', hmore⟩ := h'.inner
  have hmid : ∀ {name}, mid.find name = (before.find name).or (new.lookup name) :=
    find_of_added h.outer hinner fun entry hmem => (hnew entry hmem).2
  refine ⟨h'.outer.trans h.outer, new ++ more, ?_, ?_, ?_⟩
  · rw [hinner', hinner, List.append_assoc]
  · -- a name that was added first has a meaning when the others are added
    rw [List.map_append]
    refine List.nodup_append.mpr ⟨hnodup, hnodup', ?_⟩
    rintro name hname _ hname' rfl
    obtain ⟨entry, hmem, rfl⟩ := List.mem_map.mp hname'
    have hnone := hmid.symm.trans (hmore entry hmem).2
    exact lookup_ne_none hname (Option.or_eq_none_iff.mp hnone).2
  · intro entry hmem
    rcases List.mem_append.mp hmem with hmem | hmem
    · exact ⟨List.mem_append_left _ (hnew entry hmem).1, (hnew entry hmem).2⟩
    · have hnone := hmid.symm.trans (hmore entry hmem).2
      exact ⟨List.mem_append_right _ (hmore entry hmem).1, (Option.or_eq_none_iff.mp hnone).1⟩

/-- A name without a meaning gets one in the innermost scope. -/
theorem define (s : Scopes) (n : Node) (h : s.find name = none) :
    Widens [name] s (s.define name n) := by
  have hnone : s.inner.entries.lookup name = none := by
    rw [find_eq] at h
    exact (Option.or_eq_none_iff.mp h).1
  refine ⟨rfl, [(name, n)], Table.putEntry_of_lookup_none hnone n, List.pairwise_singleton _ _, ?_⟩
  intro entry hmem
  obtain rfl := List.mem_singleton.mp hmem
  exact ⟨List.mem_singleton_self _, h⟩

end Widens

end Scopes

/-! ## Steps that add names -/

/-- A step of typing that adds no names but `names` to the innermost scope, however it ends. -/
def Names {α : Type} (names : List String) (act : TypingM α) : Prop :=
  ∀ s : Typing, s.scopes.Widens names (left (act s)).scopes

/-- A step of typing that leaves the scopes around the innermost one as they are. -/
def Stays {α : Type} (act : TypingM α) : Prop :=
  ∀ s : Typing, (left (act s)).scopes.outer = s.scopes.outer

variable {α β : Type} {names others : List String} {typer : Typer} {ctx : Context} {mark : Mark}
  {place : Place}

namespace Names

variable {x : TypingM α} {f : α → TypingM β}

theorem pure' (a : α) : Names names (pure a : TypingM α) := fun s => .refl s.scopes

theorem bind' (hx : Names names x) (hf : ∀ a, Names others (f a)) :
    Names (names ++ others) (x >>= f) := by
  intro s
  rw [bind_eq]
  have hfirst := hx s
  cases hact : x s with
  | error halt t =>
    rw [hact] at hfirst
    exact hfirst.mono (List.subset_append_left names others)
  | ok a t =>
    rw [hact] at hfirst
    exact hfirst.trans (hf a t)

/-- The first step adds no names. -/
theorem after' (hx : Names [] x) (hf : ∀ a, Names names (f a)) : Names names (x >>= f) :=
  bind' hx hf

/-- The steps after the first one add no names. -/
theorem before' (hx : Names names x) (hf : ∀ a, Names [] (f a)) : Names names (x >>= f) :=
  List.append_nil names ▸ bind' hx hf

theorem stays (hx : Names names x) : Stays x := fun s => (hx s).outer

end Names

theorem Stays.bind' {x : TypingM α} {f : α → TypingM β} (hx : Stays x) (hf : ∀ a, Stays (f a)) :
    Stays (x >>= f) := by
  intro s
  refine left_bind (P := fun t : Typing => t.scopes.outer = s.scopes.outer) (hx s) fun a t _ h => ?_
  exact (hf a t).trans h

theorem names_lift (act : RunM α) : Names [] (Typing.lift act) := by
  intro s
  refine .of_eq ?_
  unfold Typing.lift
  cases act s.run with
  | ok a run => rfl
  | error halt run => rfl

theorem names_nil : Names [] (Typing.lift RunM.sharedNil) := names_lift _

/-- A scope is closed to the scopes in which it was opened. -/
theorem pop_of_stays {act : TypingM α} (h : Stays act) (s : Typing) :
    (left (act ⟨s.scopes.push, s.run⟩)).scopes.pop? = some s.scopes := by
  unfold Scopes.pop?
  rw [h]
  rfl

theorem scopes_inScope {act : TypingM α} (h : Stays act) (s : Typing) :
    (left (TypingM.inScope act s)).scopes = s.scopes := by
  have hpop := pop_of_stays h s
  unfold TypingM.inScope
  dsimp only
  cases hact : act ⟨s.scopes.push, s.run⟩ with
  | ok a t =>
    rw [hact] at hpop
    exact congrArg (·.getD t.scopes) hpop
  | error halt t =>
    rw [hact] at hpop
    exact congrArg (·.getD t.scopes) hpop

theorem names_readVariable (name : String) (place : Place) :
    Names [] (TypingM.readVariable name place) := by
  intro s
  unfold TypingM.readVariable
  rw [get_bind_eq]
  cases s.scopes.find name with
  | some n => exact .refl s.scopes
  | none => exact names_lift _ s

theorem names_writtenVariable (name : String) : Names [name] (TypingM.writtenVariable name) := by
  intro s
  unfold TypingM.writtenVariable
  rw [get_bind_eq]
  cases hfind : s.scopes.find name with
  | some n => exact .refl s.scopes
  | none => exact .define s.scopes (s.run.freshNode .plain .synthesized).1 hfind

theorem stays_define (name : String) (n : Node) :
    Stays (modify fun s => { s with scopes := s.scopes.define name n } : TypingM Unit) :=
  fun _ => rfl

theorem stays_blockParameters (names : List String) :
    Stays (TypingM.blockParameters place names) := by
  induction names with
  | nil => exact fun _ => rfl
  | cons name names ih =>
    refine .bind' (names_lift (RunM.freshNode place)).stays fun n => ?_
    exact .bind' (stays_define name n) fun _ => .bind' ih fun ns => fun _ => rfl

/-- What the parameters and the body of a block add is added to its own scope. -/
theorem stays_blockBody {body : TypingM Node} (place : Place) (names : List String)
    (hbody : Stays body) :
    Stays (do
      let parameters ← TypingM.blockParameters place names
      let result ← body
      pure (some (⟨parameters, result⟩ : BlockFlow))) :=
  .bind' (stays_blockParameters names) fun _ => .bind' hbody fun _ => fun _ => rfl

theorem names_record (n : Node) : Names [] (TypingM.record ctx mark n) := by
  unfold TypingM.record
  split
  · exact .after' (fun s => .refl s.scopes) fun _ => .pure' n
  · exact .pure' n

/-- An expression whose parts have been typed gets its node. -/
theorem names_recorded {x : TypingM Node} (hx : Names names x) :
    Names names (x >>= TypingM.record ctx mark) :=
  hx.before' names_record

/-- The names that an assignment to one target adds. -/
def Target.named : Target → List String
  | .localVar name => [name]
  | _ => []

theorem names_assign (target : Target) (n : Node) :
    Names target.named (TypingM.assign ctx target n) := by
  unfold TypingM.assign
  cases target with
  | localVar name => exact (names_writtenVariable name).before' fun var => names_lift _
  | slot name => exact .after' (names_lift _) fun slot => names_lift _
  | constant name => exact .pure' ()

theorem names_assignMissing (targets : List Target) :
    Names (Expr.namedEach targets []) (TypingM.assignMissing typer ctx mark targets) := by
  induction targets with
  | nil => exact .pure' ()
  | cons target targets ih =>
    rw [Expr.namedEach] at ih ⊢
    cases target with
    | constant name =>
      unfold TypingM.assignMissing
      exact .after' (.after' (names_lift _) fun _ => .pure' _) fun _ => ih
    | localVar name =>
      unfold TypingM.assignMissing
      exact .after' names_nil fun value =>
        (names_assign (.localVar name) value).bind' fun _ => ih
    | slot name =>
      unfold TypingM.assignMissing
      exact .after' names_nil fun value => .after' (names_assign (.slot name) value) fun _ => ih

theorem names_inDeclaration (name : String) (typeBody : Context → TypingM Node) :
    Names [] (TypingM.inDeclaration ctx name typeBody) := by
  unfold TypingM.inDeclaration
  refine .after' (names_lift _) fun c => .after' (names_lift _) fun t => ?_
  exact .after' (names_lift _) fun _ => names_nil

/-! ## Expressions -/

mutual

theorem names_nodeOf (typer : Typer) (ctx : Context) (e : Expr) :
    Names e.named (TypingM.nodeOf typer ctx e) := by
  cases e with
  | literal mark kind =>
    unfold TypingM.nodeOf Expr.named
    exact names_recorded (names_lift _)
  | localVar mark name =>
    unfold TypingM.nodeOf Expr.named
    exact names_recorded (names_readVariable name mark.place)
  | slot mark name =>
    unfold TypingM.nodeOf Expr.named
    exact names_recorded (names_lift _)
  | self mark =>
    unfold TypingM.nodeOf Expr.named
    exact names_recorded (names_lift _)
  | path mark names =>
    unfold TypingM.nodeOf Expr.named
    exact names_recorded (names_lift _)
  | assign mark target value =>
    cases target with
    | constant name =>
      unfold TypingM.nodeOf Expr.named
      exact names_recorded (names_lift _)
    | slot name =>
      unfold TypingM.nodeOf Expr.named
      exact (names_nodeOf typer ctx value).before' fun n =>
        .after' (names_assign (.slot name) n) fun _ => names_record n
    | localVar name =>
      unfold TypingM.nodeOf Expr.named
      exact (names_nodeOf typer ctx value).bind' fun n =>
        (names_assign (.localVar name) n).before' fun _ => names_record n
  | assignMany mark targets values =>
    unfold TypingM.nodeOf Expr.named
    exact (names_assignEach typer ctx mark targets values).before' fun _ => names_recorded names_nil
  | sequence mark items =>
    unfold TypingM.nodeOf Expr.named
    refine (names_nodesOf typer ctx items).before' fun ns => ?_
    split
    · exact names_record _
    · exact names_recorded names_nil
  | branch mark condition accepted refused =>
    unfold TypingM.nodeOf Expr.named
    rw [List.append_assoc]
    refine (names_nodeOf typer ctx condition).bind' fun _ => ?_
    refine (names_nodeOf typer ctx accepted).bind' fun a => ?_
    exact (names_nodeOrNil typer ctx refused).before' fun b => names_recorded (names_lift _)
  | loop mark condition body =>
    unfold TypingM.nodeOf Expr.named
    refine (names_nodeOf typer ctx condition).bind' fun _ => ?_
    exact (names_nodeOf typer ctx body).before' fun _ => names_recorded names_nil
  | call mark receiver name arguments block =>
    unfold TypingM.nodeOf Expr.named
    refine (names_nodeOfOption typer ctx receiver).bind' fun receiver => ?_
    refine (names_nodesOf typer ctx arguments).before' fun arguments => ?_
    refine .after' (names_blockOf typer ctx mark.place block) fun block => ?_
    refine .after' (names_lift _) fun result => ?_
    exact .after' (names_lift _) fun _ => names_record result
  | yielding mark arguments =>
    unfold TypingM.nodeOf Expr.named
    split
    · exact fun s => (names_lift _ s).mono (List.nil_subset _)
    · next block _ =>
      refine (names_nodesOf typer ctx arguments).before' fun ns => ?_
      exact .after' (names_lift _) fun _ => names_recorded (names_lift _)
  | returning mark value =>
    unfold TypingM.nodeOf Expr.named
    refine (names_nodeOrNil typer ctx value).before' fun n => ?_
    split
    · exact .after' (names_lift _) fun _ => names_recorded (names_lift _)
    · exact names_recorded (names_lift _)
  | array mark elements of =>
    unfold TypingM.nodeOf Expr.named
    refine .after' (names_lift _) fun element => ?_
    -- what follows the written type
    have rest : Names (Expr.namedAll elements) (do
        TypingM.typeElements typer ctx element elements
        TypingM.record ctx mark (← RunM.arrayNode mark.place element)) :=
      (names_typeElements typer ctx element elements).before' fun _ => names_recorded (names_lift _)
    split
    · refine .after' (names_lift _) fun c => .after' (names_lift _) fun t => ?_
      exact .after' (names_lift _) fun shared => .after' (names_lift _) fun _ => rest
    · exact rest
  | addressOf mark value =>
    unfold TypingM.nodeOf Expr.named
    refine (names_nodeOf typer ctx value).before' fun n => ?_
    refine .after' (names_lift _) fun address => ?_
    exact .after' (names_lift _) fun _ => names_record address
  | classDef mark name superclass generic body =>
    unfold TypingM.nodeOf Expr.named
    exact names_recorded (names_inDeclaration name _)
  | moduleDef mark name body =>
    unfold TypingM.nodeOf Expr.named
    exact names_recorded (names_inDeclaration name _)
  | methodDef mark name onMetaclass params body =>
    unfold TypingM.nodeOf Expr.named
    exact names_recorded names_nil
  | recordDef mark name fields =>
    unfold TypingM.nodeOf Expr.named
    exact names_recorded names_nil
  | inclusion mark names =>
    unfold TypingM.nodeOf Expr.named
    exact names_recorded names_nil

theorem names_nodesOf (typer : Typer) (ctx : Context) (es : List Expr) :
    Names (Expr.namedAll es) (TypingM.nodesOf typer ctx es) := by
  cases es with
  | nil => exact .pure' []
  | cons e rest =>
    unfold TypingM.nodesOf Expr.namedAll
    exact (names_nodeOf typer ctx e).bind' fun n =>
      (names_nodesOf typer ctx rest).before' fun ns => .pure' (n :: ns)

theorem names_nodeOfOption (typer : Typer) (ctx : Context) (o : Option Expr) :
    Names (Expr.namedOption o) (TypingM.nodeOfOption typer ctx o) := by
  cases o with
  | none => exact .pure' none
  | some e => exact (names_nodeOf typer ctx e).before' fun n => .pure' (some n)

theorem names_nodeOrNil (typer : Typer) (ctx : Context) (o : Option Expr) :
    Names (Expr.namedOption o) (TypingM.nodeOrNil typer ctx o) := by
  cases o with
  | none => exact names_nil
  | some e => exact names_nodeOf typer ctx e

theorem names_blockOf (typer : Typer) (ctx : Context) (place : Place)
    (block : Option (List String × Expr)) :
    Names [] (TypingM.blockOf typer ctx place block) := by
  cases block with
  | none => exact .pure' none
  | some block =>
    obtain ⟨names, body⟩ := block
    unfold TypingM.blockOf
    have hbody := (names_nodeOf typer ctx body).stays
    exact fun s => .of_eq (scopes_inScope (stays_blockBody place names hbody) s)

theorem names_typeElements (typer : Typer) (ctx : Context) (element : Node) (es : List Expr) :
    Names (Expr.namedAll es) (TypingM.typeElements typer ctx element es) := by
  cases es with
  | nil => exact .pure' ()
  | cons e rest =>
    unfold TypingM.typeElements Expr.namedAll
    exact (names_nodeOf typer ctx e).bind' fun n =>
      .after' (names_lift _) fun _ => names_typeElements typer ctx element rest

theorem names_assignEach (typer : Typer) (ctx : Context) (mark : Mark) (targets : List Target)
    (es : List Expr) :
    Names (Expr.namedEach targets es) (TypingM.assignEach typer ctx mark targets es) := by
  cases es with
  | nil =>
    unfold TypingM.assignEach
    exact names_assignMissing targets
  | cons e rest =>
    cases targets with
    | nil =>
      unfold TypingM.assignEach Expr.namedEach
      exact (names_nodeOf typer ctx e).bind' fun _ => names_assignEach typer ctx mark [] rest
    | cons target targets =>
      cases target with
      | constant name =>
        unfold TypingM.assignEach Expr.namedEach
        exact .after' (names_lift _) fun _ => names_assignEach typer ctx mark targets rest
      | slot name =>
        unfold TypingM.assignEach Expr.namedEach
        exact (names_nodeOf typer ctx e).bind' fun n => .after' (names_assign (.slot name) n)
          fun _ => names_assignEach typer ctx mark targets rest
      | localVar name =>
        unfold TypingM.assignEach Expr.namedEach
        exact (names_nodeOf typer ctx e).bind' fun n => (names_assign (.localVar name) n).bind'
          fun _ => names_assignEach typer ctx mark targets rest

end

/-- However the typing of an expression ends, there are as many scopes as before, those around the
innermost one are the same, and to that one the expression has at most added names that meant
nothing, of those that it assigns outside blocks. So each name that meant a node means it still,
and each name that is not assigned means what it did. As the body of a block, the expression leaves
no trace at all: the scope of the block, which holds its parameters and all that is first assigned
in it, is closed to the scopes in which it was opened, and is never the outermost one. What else
surrounds an expression, its context, is no part of the state that typing changes. -/
theorem variables_kept (typer : Typer) (ctx : Context) (e : Expr) (s : Typing) :
    (left (TypingM.nodeOf typer ctx e s)).scopes.depth = s.scopes.depth ∧
    (left (TypingM.nodeOf typer ctx e s)).scopes.outer = s.scopes.outer ∧
    (∃ new : List (String × Node),
      (left (TypingM.nodeOf typer ctx e s)).scopes.inner.entries =
        s.scopes.inner.entries ++ new ∧ (new.map (·.1)).Nodup ∧
      ∀ entry ∈ new, entry.1 ∈ e.named ∧ s.scopes.find entry.1 = none) ∧
    (∀ name n, s.scopes.find name = some n →
      (left (TypingM.nodeOf typer ctx e s)).scopes.find name = some n) ∧
    (∀ name, name ∉ e.named →
      (left (TypingM.nodeOf typer ctx e s)).scopes.find name = s.scopes.find name) ∧
    ∀ (place : Place) (names : List String),
      (left (TypingM.blockOf typer ctx place (some (names, e)) s)).scopes = s.scopes ∧
      (left ((do
        let parameters ← TypingM.blockParameters place names
        let result ← TypingM.nodeOf typer ctx e
        pure (some (⟨parameters, result⟩ : BlockFlow)) : TypingM (Option BlockFlow))
          ⟨s.scopes.push, s.run⟩)).scopes.pop? = some s.scopes := by
  have hwidens := names_nodeOf typer ctx e s
  refine ⟨hwidens.depth, hwidens.outer, hwidens.inner, fun name n => hwidens.find,
    fun name => hwidens.find_of_notMem, fun place names => ?_⟩
  have hblock := stays_blockBody place names (names_nodeOf typer ctx e).stays
  exact ⟨scopes_inScope hblock s, pop_of_stays hblock s⟩

/-- A call with a block that fails: `shadow` is a parameter of the block and a variable around it,
`kept` is assigned in the block and around it, `inside` only in the block, and a variable that does
not exist is read at its end. -/
def failingBlock : Expr :=
  let mark : Mark := ⟨0, .synthesized⟩
  .call mark none "each" [.assign mark (.localVar "gained") (.literal mark .int)]
    (some (["shadow"], .sequence mark [
      .assign mark (.localVar "inside") (.localVar mark "shadow"),
      .assign mark (.localVar "kept") (.literal mark .nil),
      .localVar mark "missing"]))

/-- The call fails within the block. The variables around it mean what they did, one that its
argument assigns is new, and the one that the block assigns is gone. -/
theorem variables_kept_failing :
    let scopes : Scopes := ⟨⟨[("shadow", ⟨0⟩)]⟩, [⟨[("kept", ⟨1⟩)]⟩]⟩
    let s : Typing := ⟨scopes, .start .seeded .standard⟩
    let ctx : Context := ⟨.main, .main, none, true, []⟩
    let after := (left (TypingM.nodeOf (TypingM.typerWithin 1) ctx failingBlock s)).scopes
    (TypingM.nodeOf (TypingM.typerWithin 1) ctx failingBlock s matches .error _ _) ∧
      scopes.find "shadow" = some ⟨0⟩ ∧ after.find "shadow" = some ⟨0⟩ ∧
      scopes.find "kept" = some ⟨1⟩ ∧ after.find "kept" = some ⟨1⟩ ∧
      "inside" ∉ failingBlock.named ∧ after.find "inside" = none ∧
      (after.find "gained").isSome ∧ after.depth = 2 := by
  intro scopes s ctx after
  obtain ⟨hdepth, -, -, hkept, hothers, -⟩ :=
    variables_kept (TypingM.typerWithin 1) ctx failingBlock s
  refine ⟨by decide +kernel, rfl, hkept "shadow" ⟨0⟩ rfl, rfl, hkept "kept" ⟨1⟩ rfl, ?_, ?_, ?_,
    hdepth⟩
  · decide
  · exact hothers "inside" (by decide)
  · decide +kernel

end FlowTyping
