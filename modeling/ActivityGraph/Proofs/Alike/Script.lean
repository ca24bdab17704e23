import ActivityGraph.Script

namespace ActivityGraph

/-- What two runs are compared by. -/
structure Lens where
  own : String → Bool
  /-- Whether slots are left out, and the answers to scripts with them. -/
  blind : Bool := false
  /-- Whether anything may wait for time. -/
  timed : Bool := true

def Lens.other (L : Lens) : Lens := { L with own := fun h ↦ !L.own h }

@[simp] theorem Lens.own_other (L : Lens) (h : String) : L.other.own h = !L.own h := rfl

@[simp] theorem Lens.blind_other (L : Lens) : L.other.blind = L.blind := rfl

@[simp] theorem Lens.timed_other (L : Lens) : L.other.timed = L.timed := rfl

@[simp] theorem Lens.other_other (L : Lens) : L.other.other = L := by
  simp [Lens.other]

def Query.names (home : String) : Query → List String
  | .info id | .extract id _ _ | .diagram id _ | .read id _ | .result id | .fired id | .peek id | .describe id => [id]
  | .completion node => [node.getD home]

def Grant.names (home : String) : Grant → List String
  | .whole id | .ofStart id | .within id _ | .narrow id _ => [id]
  | .ofCompletion node _ => [node.getD home]

def Operand.names : Operand → List String
  | .value _ => []
  | .payload _ _ view => [view]

def Operand.stored : Operand → Bool
  | .value _ => false
  | .payload .. => true

mutual

def Script.names (home : String) : List (Line Action) → List String
  | [] => []
  | l :: ls => l.names home ++ Script.names home ls

def Line.names (home : String) : Line Action → List String
  | ⟨_, _, a⟩ => a.names home

def Action.names (home : String) : Action → List String
  | .collect id .. | .start id .. | .run id | .begin id | .arrive id _ | .expect id | .release id => [id]
  | .ask q => q.names home
  | .grant id g => id :: g.names home
  | .insert collector _ _ => [collector]
  | .set view _ _ => [view]
  | .perform id _ collector deps setup work => id :: collector :: deps ++ Setup.names id setup ++ Work.names id work
  | .finish id collector deps body => id :: ("@" ++ id) :: collector :: deps ++ Script.names id body
  | .after id dep | .listen id dep => [id, dep]
  | .done id next => [id, next]
  | .report node _ | .drop node => [node.getD home]
  | .change _ o => o.names
  | .probe id _ _ invoke cancel => id :: Script.names id invoke ++ Script.names id cancel
  | .clone id copy => [id, copy]
  | .panic _ | .advance .. | .unsupported => []

def Setup.names (home : String) : Option (List (Step (List (Line Action)))) → List String
  | none => []
  | some steps => Steps.names home steps

def Steps.names (home : String) : List (Step (List (Line Action))) → List String
  | [] => []
  | s :: ss => Step.names home s ++ Steps.names home ss

def Step.names (home : String) : Step (List (Line Action)) → List String
  | .prepare _ code => Script.names home code
  | _ => []

def Work.names (home : String) : Work (List (Line Action)) → List String
  | .script body _ _ => Script.names home body
  | .timer _ => []

end

mutual

def Script.timeless : List (Line Action) → Bool
  | [] => true
  | l :: ls => l.timeless && Script.timeless ls

def Line.timeless : Line Action → Bool
  | ⟨_, _, a⟩ => a.timeless

def Action.timeless : Action → Bool
  | .perform _ _ _ _ setup work => Setup.timeless setup && Work.timeless work
  | .finish _ _ _ body => Script.timeless body
  | .probe _ _ _ invoke cancel => Script.timeless invoke && Script.timeless cancel
  | _ => true

def Setup.timeless : Option (List (Step (List (Line Action)))) → Bool
  | none => true
  | some steps => Steps.timeless steps

def Steps.timeless : List (Step (List (Line Action))) → Bool
  | [] => true
  | s :: ss => Step.timeless s && Steps.timeless ss

def Step.timeless : Step (List (Line Action)) → Bool
  | .prepare _ code => Script.timeless code
  | _ => true

def Work.timeless : Work (List (Line Action)) → Bool
  | .script body _ _ => Script.timeless body
  | .timer _ => false

end

mutual

/-- Whether a script, or one that it makes, brings the contents of a slot to its register. Only so can what
is in a slot decide what a script does next. -/
def Script.loads : List (Line Action) → Bool
  | [] => false
  | l :: ls => l.loads || Script.loads ls

def Line.loads : Line Action → Bool
  | ⟨_, _, a⟩ => a.loads

def Action.loads : Action → Bool
  | .change _ o => o.stored
  | .perform _ _ _ _ setup work => Setup.loads setup || Work.loads work
  | .finish _ _ _ body => Script.loads body
  | .probe _ _ _ invoke cancel => Script.loads invoke || Script.loads cancel
  | _ => false

def Setup.loads : Option (List (Step (List (Line Action)))) → Bool
  | none => false
  | some steps => Steps.loads steps

def Steps.loads : List (Step (List (Line Action))) → Bool
  | [] => false
  | s :: ss => Step.loads s || Steps.loads ss

def Step.loads : Step (List (Line Action)) → Bool
  | .prepare _ code => Script.loads code
  | _ => false

def Work.loads : Work (List (Line Action)) → Bool
  | .script body _ _ => Script.loads body
  | .timer _ => false

end

namespace Action

def plain : Action → Bool
  | .perform .. | .finish .. | .probe .. => false
  | _ => true

def stores : Action → Bool
  | .insert .. | .set .. => true
  | _ => false

end Action

def Step.plain {κ : Type} : Step κ → Bool
  | .prepare .. => false
  | _ => true

mutual

/-- What the second script does looks like what the first one does: all handles are looked at, and if slots
are not, then the first script takes nothing out of them, and the second one may write more of them, at any
point and at any depth. -/
inductive Script.Alike (L : Lens) : String → List (Line Action) → List (Line Action) → Prop
  | nil {home : String} : Script.Alike L home [] []
  | cons {home verb : String} {caught : Bool} {a b : Action} {s t : List (Line Action)}
      (ha : Action.Alike L home a b) (hs : Script.Alike L home s t) :
      Script.Alike L home (⟨verb, caught, a⟩ :: s) (⟨verb, caught, b⟩ :: t)
  | extra {home : String} {l : Line Action} {s t : List (Line Action)} (hb : L.blind) (hl : l.action.stores)
      (hs : Script.Alike L home s t) : Script.Alike L home s (l :: t)

inductive Action.Alike (L : Lens) : String → Action → Action → Prop
  | plain {home : String} {a : Action} (ha : a.plain) (own : ∀ h ∈ a.names home, L.own h)
      (sees : L.blind → a.loads = false) : Action.Alike L home a a
  | perform {home id key collector : String} {deps : List String}
      {u v : Option (List (Step (List (Line Action))))} {w x : Work (List (Line Action))}
      (own : ∀ h ∈ id :: collector :: deps, L.own h) (hu : Setup.Alike L id u v) (hw : Work.Alike L id w x) :
      Action.Alike L home (.perform id key collector deps u w) (.perform id key collector deps v x)
  | finish {home id collector : String} {deps : List String} {s t : List (Line Action)}
      (own : ∀ h ∈ id :: ("@" ++ id) :: collector :: deps, L.own h) (hs : Script.Alike L id s t) :
      Action.Alike L home (.finish id collector deps s) (.finish id collector deps t)
  | probe {home id name : String} {count : Nat} {s t u v : List (Line Action)} (own : L.own id)
      (hs : Script.Alike L id s t) (hu : Script.Alike L id u v) :
      Action.Alike L home (.probe id count name s u) (.probe id count name t v)

inductive Setup.Alike (L : Lens) : String → Option (List (Step (List (Line Action)))) →
    Option (List (Step (List (Line Action)))) → Prop
  | none {home : String} : Setup.Alike L home none none
  | some {home : String} {ss ts : List (Step (List (Line Action)))} (hs : Steps.Alike L home ss ts) :
      Setup.Alike L home (some ss) (some ts)

inductive Steps.Alike (L : Lens) : String → List (Step (List (Line Action))) →
    List (Step (List (Line Action))) → Prop
  | nil {home : String} : Steps.Alike L home [] []
  | same {home : String} {s : Step (List (Line Action))} {ss ts : List (Step (List (Line Action)))}
      (hs : s.plain) (h : Steps.Alike L home ss ts) : Steps.Alike L home (s :: ss) (s :: ts)
  | prepare {home : String} {place : Nat} {s t : List (Line Action)} {ss ts : List (Step (List (Line Action)))}
      (hs : Script.Alike L home s t) (h : Steps.Alike L home ss ts) :
      Steps.Alike L home (.prepare place s :: ss) (.prepare place t :: ts)

inductive Work.Alike (L : Lens) : String → Work (List (Line Action)) → Work (List (Line Action)) → Prop
  | script {home : String} {hold : Bool} {register : Json} {s t : List (Line Action)}
      (hs : Script.Alike L home s t) : Work.Alike L home (.script s hold register) (.script t hold register)
  | timer {home : String} {after : Duration} (time : L.timed) : Work.Alike L home (.timer after) (.timer after)

end

theorem Work.Alike.withRegister {L : Lens} {home : String} {w x : Work (List (Line Action))}
    (h : Work.Alike L home w x) (r : Json) : Work.Alike L home (w.withRegister r) (x.withRegister r) := by
  cases h with
  | script hs => exact .script hs
  | timer time => exact .timer time

section

variable {L : Lens}

mutual

theorem Script.alike_self {home : String} {s : List (Line Action)} (own : ∀ h ∈ Script.names home s, L.own h)
    (sees : L.blind → Script.loads s = false) (time : L.timed ∨ Script.timeless s) : Script.Alike L home s s := by
  match s with
  | [] => exact .nil
  | ⟨verb, caught, a⟩ :: s =>
    simp only [Script.names, Line.names, List.forall_mem_append] at own
    simp only [Script.loads, Line.loads, Bool.or_eq_false_iff, forall_and] at sees
    simp only [Script.timeless, Line.timeless, Bool.and_eq_true] at time
    exact .cons (Action.alike_self own.1 sees.1 (time.imp_right And.left))
      (Script.alike_self own.2 sees.2 (time.imp_right And.right))

theorem Action.alike_self {home : String} {a : Action} (own : ∀ h ∈ a.names home, L.own h)
    (sees : L.blind → a.loads = false) (time : L.timed ∨ a.timeless) : Action.Alike L home a a := by
  match a with
  | .perform id key collector deps setup work =>
    simp only [Action.names, List.forall_mem_append] at own
    simp only [Action.loads, Bool.or_eq_false_iff, forall_and] at sees
    simp only [Action.timeless, Bool.and_eq_true] at time
    exact .perform own.1.1 (Setup.alike_self own.1.2 sees.1 (time.imp_right And.left))
      (Work.alike_self own.2 sees.2 (time.imp_right And.right))
  | .finish id collector deps body =>
    simp only [Action.names, List.forall_mem_append] at own
    exact .finish own.1 (Script.alike_self own.2 sees time)
  | .probe id count name invoke cancel =>
    simp only [Action.names, List.forall_mem_append, List.forall_mem_cons] at own
    simp only [Action.loads, Bool.or_eq_false_iff, forall_and] at sees
    simp only [Action.timeless, Bool.and_eq_true] at time
    exact .probe own.1.1 (Script.alike_self own.1.2 sees.1 (time.imp_right And.left))
      (Script.alike_self own.2 sees.2 (time.imp_right And.right))
  | .collect .. | .start .. | .run .. | .ask .. | .grant .. | .insert .. | .set .. | .begin .. | .after .. | .done ..
  | .report .. | .drop .. | .change .. | .panic .. | .arrive .. | .expect .. | .release .. | .listen .. | .clone ..
  | .advance .. | .unsupported => exact .plain rfl own sees

theorem Setup.alike_self {home : String} {setup : Option (List (Step (List (Line Action))))}
    (own : ∀ h ∈ Setup.names home setup, L.own h) (sees : L.blind → Setup.loads setup = false)
    (time : L.timed ∨ Setup.timeless setup) : Setup.Alike L home setup setup := by
  match setup with
  | none => exact .none
  | some steps => exact .some (Steps.alike_self own sees time)

theorem Steps.alike_self {home : String} {ss : List (Step (List (Line Action)))}
    (own : ∀ h ∈ Steps.names home ss, L.own h) (sees : L.blind → Steps.loads ss = false)
    (time : L.timed ∨ Steps.timeless ss) : Steps.Alike L home ss ss := by
  match ss with
  | [] => exact .nil
  | s :: ss =>
    simp only [Steps.names, List.forall_mem_append] at own
    simp only [Steps.loads, Bool.or_eq_false_iff, forall_and] at sees
    simp only [Steps.timeless, Bool.and_eq_true] at time
    have ih := Steps.alike_self own.2 sees.2 (time.imp_right And.right)
    match s with
    | .prepare _ code => exact .prepare (Script.alike_self own.1 sees.1 (time.imp_right And.left)) ih
    | .required .. | .cancelIf .. | .ifErrored .. | .ifFailed .. | .ifCanceled .. => exact .same rfl ih

theorem Work.alike_self {home : String} {w : Work (List (Line Action))} (own : ∀ h ∈ Work.names home w, L.own h)
    (sees : L.blind → Work.loads w = false) (time : L.timed ∨ Work.timeless w) : Work.Alike L home w w := by
  match w with
  | .script body hold register => exact .script (Script.alike_self own sees time)
  | .timer after => exact .timer (time.resolve_right Bool.false_ne_true)

end

mutual

theorem Script.Alike.eq (hb : L.blind = false) {home : String} {s t : List (Line Action)}
    (h : Script.Alike L home s t) : t = s := by
  cases h with
  | nil => rfl
  | cons ha hs => rw [ha.eq hb, hs.eq hb]
  | extra hb' => simp [hb] at hb'

theorem Action.Alike.eq (hb : L.blind = false) {home : String} {a b : Action} (h : Action.Alike L home a b) :
    b = a := by
  cases h with
  | plain => rfl
  | perform _ hu hw => rw [hu.eq hb, hw.eq hb]
  | finish _ hs => rw [hs.eq hb]
  | probe _ hs hu => rw [hs.eq hb, hu.eq hb]

theorem Setup.Alike.eq (hb : L.blind = false) {home : String} {u v : Option (List (Step (List (Line Action))))}
    (h : Setup.Alike L home u v) : v = u := by
  cases h with
  | none => rfl
  | some hs => rw [hs.eq hb]

theorem Steps.Alike.eq (hb : L.blind = false) {home : String} {ss ts : List (Step (List (Line Action)))}
    (h : Steps.Alike L home ss ts) : ts = ss := by
  cases h with
  | nil => rfl
  | same _ h => rw [h.eq hb]
  | prepare hs h => rw [hs.eq hb, h.eq hb]

theorem Work.Alike.eq (hb : L.blind = false) {home : String} {w x : Work (List (Line Action))}
    (h : Work.Alike L home w x) : x = w := by
  cases h with
  | script hs => rw [hs.eq hb]
  | timer => rfl

end

end

end ActivityGraph
