import LiveScheme.Form.Quasiquote
import LiveScheme.Proofs.Machine.Becomes
import LiveScheme.Proofs.Value.Bare

/-!
# Plans of templates

A plan says what a template needs and what it comes to: the operands to evaluate, from left to
right, and what is built of their values. A run follows a plan when it evaluates these operands in
this order, each on the machine that the one before has left but for identities given out in
between, stops where one of them stops or is to be spliced and has no elements, and otherwise
answers what the plan builds.
-/

namespace LiveScheme

/-- An operand that a template has evaluated, for its value or for the elements of its value. -/
inductive Hole
  | value (operand : Value)
  | elements (operand : Value)

namespace Hole

def operand : Hole → Value
  | value e | elements e => e

/-- Whether the hole can be filled with the value of its operand. -/
def accepts : Hole → Value → Bool
  | value _, _ => true
  | elements _, v => v.elements?.isSome

end Hole

/-- The operands of the holes are evaluated in turn, and these are their values. Between two
evaluations identities may be given out. -/
inductive Answers (g : Engine) (s : Scope) :
    List Hole → Machine → List Value → Machine → Prop
  | done (m : Machine) (count : Nat) : Answers g s [] m [] (m.skip count)
  | next {h : Hole} {rest : List Hole} {m m' n : Machine} {v : Value} {vs : List Value}
      (count : Nat) : g.eval h.operand s (m.skip count) = .ok v m' → h.accepts v = true →
    Answers g s rest m' vs n → Answers g s (h :: rest) m (v :: vs) n

/-- The operands of the holes are evaluated in turn until one of them stops, or has a value that
cannot fill its hole. -/
inductive Halts (g : Engine) (s : Scope) : List Hole → Machine → Stop → Machine → Prop
  | here {h : Hole} {rest : List Hole} {m n : Machine} {stop : Stop} (count : Nat) :
    g.eval h.operand s (m.skip count) = .error stop n → Halts g s (h :: rest) m stop n
  | refused {h : Hole} {rest : List Hole} {m n : Machine} {v : Value} (count : Nat) :
    g.eval h.operand s (m.skip count) = .ok v n → h.accepts v = false →
    Halts g s (h :: rest) m (.error .badSplice) n
  | later {h : Hole} {rest : List Hole} {m m' n : Machine} {v : Value} {stop : Stop}
      (count : Nat) : g.eval h.operand s (m.skip count) = .ok v m' → h.accepts v = true →
    Halts g s rest m' stop n → Halts g s (h :: rest) m stop n

section Asking

variable {g : Engine} {s : Scope} {hs hs' : List Hole} {m n k : Machine} {vs vs' : List Value}
  {stop : Stop} {count : Nat}

namespace Answers

theorem skip_left (h : Answers g s hs (m.skip count) vs n) : Answers g s hs m vs n := by
  cases h with
  | done _ more =>
    rw [Machine.skip_skip]
    exact .done m _
  | next more heval haccepts hrest =>
    rw [Machine.skip_skip] at heval
    exact .next _ heval haccepts hrest

theorem skip_right (h : Answers g s hs m vs n) (count : Nat) :
    Answers g s hs m vs (n.skip count) := by
  induction h with
  | done m more =>
    rw [Machine.skip_skip]
    exact .done m _
  | next more heval haccepts _ ih => exact .next more heval haccepts ih

theorem append (h : Answers g s hs m vs n) (h' : Answers g s hs' n vs' k) :
    Answers g s (hs ++ hs') m (vs ++ vs') k := by
  induction h with
  | done m count => exact h'.skip_left
  | next count heval haccepts _ ih => exact .next count heval haccepts (ih h')

theorem length_eq (h : Answers g s hs m vs n) : vs.length = hs.length := by
  induction h with
  | done m count => rfl
  | next count heval haccepts _ ih => exact congrArg (· + 1) ih

end Answers

namespace Halts

theorem skip_left (h : Halts g s hs (m.skip count) stop n) : Halts g s hs m stop n := by
  cases h with
  | here more heval =>
    rw [Machine.skip_skip] at heval
    exact .here _ heval
  | refused more heval haccepts =>
    rw [Machine.skip_skip] at heval
    exact .refused _ heval haccepts
  | later more heval haccepts hrest =>
    rw [Machine.skip_skip] at heval
    exact .later _ heval haccepts hrest

theorem append_left (h : Answers g s hs m vs n) (h' : Halts g s hs' n stop k) :
    Halts g s (hs ++ hs') m stop k := by
  induction h with
  | done m count => exact h'.skip_left
  | next count heval haccepts _ ih => exact .later count heval haccepts (ih h')

theorem append_right (h : Halts g s hs m stop n) (hs' : List Hole) :
    Halts g s (hs ++ hs') m stop n := by
  induction h with
  | here count heval => exact .here count heval
  | refused count heval haccepts => exact .refused count heval haccepts
  | later count heval haccepts _ ih => exact .later count heval haccepts ih

end Halts

end Asking

namespace Quasiquote

/-- The elements of the value of an operand. -/
def splice (g : Engine) (s : Scope) (e : Value) : Run (List Value) := do
  match (← g.eval e s).elements? with
  | some items => pure items
  | none => Run.fail .badSplice

/-- What stands in a list for one of its elements. -/
def element (g : Engine) (s : Scope) (level : Nat) (item : Value) : Run (List Value) :=
  match if level = 1 then operand? "unquote-splicing" item else none with
  | some x => splice g s x
  | none => do return [← template g s level item]

theorem templates_cons (g : Engine) (s : Scope) (level : Nat) (item : Value) (rest : List Value) :
    templates g s level (item :: rest) =
      (do
        let here ← element g s level item
        let more ← templates g s level rest
        return here ++ more) := by
  conv => lhs; unfold templates
  unfold element splice
  cases if level = 1 then operand? "unquote-splicing" item else none with
  | none => simp only [bind_assoc, pure_bind]
  | some x =>
    simp only [bind_assoc]
    congr 1
    funext v
    cases v.elements? with
    | some items => rfl
    | none => rfl

end Quasiquote

/-- What a template needs and what it comes to. -/
structure Plan (β : Type) where
  holes : List Hole
  build : List Value → β

namespace Plan

variable {α β γ δ : Type}

/-- Nothing is evaluated. -/
def keep (b : β) : Plan β := ⟨[], fun _ => b⟩

def value (operand : Value) : Plan Value := ⟨[.value operand], fun answers => answers.headD .void⟩

def elements (operand : Value) : Plan (List Value) :=
  ⟨[.elements operand], fun answers => (answers.headD .void).elements?.getD []⟩

def map (f : β → γ) (p : Plan β) : Plan γ := ⟨p.holes, fun answers => f (p.build answers)⟩

/-- The first plan and then the second one. -/
def zipWith (f : β → γ → δ) (p : Plan β) (q : Plan γ) : Plan δ where
  holes := p.holes ++ q.holes
  build answers :=
    f (p.build (answers.take p.holes.length)) (q.build (answers.drop p.holes.length))

@[simp] theorem map_keep (f : β → γ) (b : β) : (keep b).map f = keep (f b) := rfl

@[simp] theorem zipWith_keep (f : β → γ → δ) (b : β) (q : Plan γ) :
    zipWith f (keep b) q = q.map (f b) := rfl

theorem zipWith_eq_keep {f : β → γ → δ} {p : Plan β} {q : Plan γ} {b : β} {c : γ}
    (h : (zipWith f p q).holes = []) (hp : p.holes = [] → p = keep b)
    (hq : q.holes = [] → q = keep c) : zipWith f p q = keep (f b c) := by
  obtain ⟨hpholes, hqholes⟩ := List.append_eq_nil_iff.mp h
  rw [hp hpholes, hq hqholes, zipWith_keep, map_keep]

/-- The result comes from evaluating the operands of the plan in turn, and what was answered looks
like what the plan builds of their values. -/
def Yields (p : Plan β) (view : α → β) (g : Engine) (s : Scope) (m : Machine) :
    EStateM.Result Stop Machine α → Prop
  | .ok a n => ∃ vs, Answers g s p.holes m vs n ∧ view a = p.build vs
  | .error stop n => Halts g s p.holes m stop n

/-- The run does what the plan says. -/
def Guides (p : Plan β) (view : α → β) (g : Engine) (s : Scope) (x : Run α) : Prop :=
  ∀ m, p.Yields view g s m (x m)

section Guides

variable {g : Engine} {s : Scope} {p : Plan β} {q : Plan γ} {view : α → β} {x : Run α}

/-- A run that makes something and takes identities for it. -/
theorem guides_keep {b : β} (h : ∀ m : Machine, ∃ a count, x m = .ok a (m.skip count) ∧ view a = b) :
    (keep b).Guides view g s x := by
  intro m
  obtain ⟨a, count, hx, hview⟩ := h m
  rw [hx]
  exact ⟨[], .done m count, hview⟩

theorem guides_pure (view : α → β) (a : α) : (keep (view a)).Guides view g s (pure a) :=
  guides_keep fun _ => ⟨a, 0, rfl, rfl⟩

theorem guides_value (look : Value → β) (e : Value) :
    ((value e).map look).Guides look g s (g.eval e s) := by
  intro m
  cases h : g.eval e s m with
  | ok v n => exact ⟨[v], .next 0 h rfl (.done n 0), rfl⟩
  | error stop n => exact .here 0 h

theorem guides_elements (look : List Value → β) (e : Value) :
    ((elements e).map look).Guides look g s (Quasiquote.splice g s e) := by
  intro m
  unfold Quasiquote.splice
  cases h : g.eval e s m with
  | error stop n =>
    rw [bind_of_error h]
    exact .here 0 h
  | ok v n =>
    rw [bind_of_ok h]
    cases hitems : v.elements? with
    | some items =>
      have haccepts : (Hole.elements e).accepts v = true := congrArg Option.isSome hitems
      refine ⟨[v], .next 0 h haccepts (.done n 0), congrArg look ?_⟩
      exact (congrArg (Option.getD · []) hitems).symm
    | none => exact .refused 0 h (congrArg Option.isSome hitems)

/-- One run after another. -/
theorem Guides.bind {ε ζ : Type} {f : α → Run ε} {combine : β → γ → ζ} {look : ε → ζ}
    (hx : p.Guides view g s x)
    (hf : ∀ a, (q.map (combine (view a))).Guides look g s (f a)) :
    (zipWith combine p q).Guides look g s (x >>= f) := by
  intro m
  have hrun := hx m
  cases hxm : x m with
  | error stop n =>
    rw [hxm] at hrun
    rw [bind_of_error hxm]
    exact hrun.append_right q.holes
  | ok a n =>
    rw [hxm] at hrun
    obtain ⟨vs, hanswers, hview⟩ := hrun
    have hrest := hf a n
    rw [bind_of_ok hxm]
    cases hfn : f a n with
    | error stop k =>
      rw [hfn] at hrest
      exact hrest.append_left hanswers
    | ok b k =>
      rw [hfn] at hrest
      obtain ⟨more, hmore, hlook⟩ := hrest
      refine ⟨vs ++ more, hanswers.append hmore, hlook.trans ?_⟩
      change combine (view a) (q.build more) = combine _ _
      rw [← hanswers.length_eq, List.take_left, List.drop_left, hview]

/-- Something is made of what was answered. -/
theorem Guides.map {ε : Type} {f : α → Run ε} {combine : β → γ} {look : ε → γ}
    (hx : p.Guides view g s x)
    (hf : ∀ a (m : Machine), ∃ b count, f a m = .ok b (m.skip count) ∧
      look b = combine (view a)) :
    (p.map combine).Guides look g s (x >>= f) := by
  intro m
  have hrun := hx m
  cases hxm : x m with
  | error stop n =>
    rw [hxm] at hrun
    rw [bind_of_error hxm]
    exact hrun
  | ok a n =>
    rw [hxm] at hrun
    obtain ⟨vs, hanswers, hview⟩ := hrun
    obtain ⟨b, count, hfn, hlook⟩ := hf a n
    rw [bind_of_ok hxm, hfn]
    exact ⟨vs, hanswers.skip_right count, hlook.trans (congrArg combine hview)⟩

end Guides

end Plan

end LiveScheme
