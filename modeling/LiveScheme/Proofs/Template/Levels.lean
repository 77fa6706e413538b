import LiveScheme.Proofs.Application.Let
import LiveScheme.Proofs.Template.Plan

/-!
# Levels of a template

The template of a quasiquotation is at level one. A nested quasiquotation raises the level of what
it encloses, an unquote lowers it, and an operand that reaches level zero is evaluated. For every
template made of lists and atoms the run follows this plan. An unquote-splicing form whose operand
reaches level zero as an element of a list is spliced; above level one it should lower the level as
an unquote does, but it is copied like any other list, which makes a difference only when there is
something to fill in its operand.
-/

namespace LiveScheme

open Node

namespace Quasiquote

/-- The form that a tag and its operand make. -/
def tagged (tag : String) (operand : Tree) : Tree := .list () [.sym tag, operand]

mutual

/-- What is to be evaluated in a template at a level, and what it comes to. Whether an
unquote-splicing form that stays lowers the level of its operand is left open. -/
def plan (lowers : Bool) (level : Int) : Value → Plan Tree
  | .list _ items =>
    match items with
    | [head, x] =>
      if head.isSym "unquote" then
        if level = 1 then (Plan.value x).map bare
        else (plan lowers (level - 1) x).map (tagged "unquote")
      else if head.isSym "quasiquote" then (plan lowers (level + 1) x).map (tagged "quasiquote")
      else if lowers && head.isSym "unquote-splicing" then
        (plan lowers (level - 1) x).map (tagged "unquote-splicing")
      else (plans lowers level [head, x]).map (.list ())
    | items => (plans lowers level items).map (.list ())
  | v => .keep v.bare

/-- The plan for the elements of a list. -/
def plans (lowers : Bool) (level : Int) : List Value → Plan (List Tree)
  | [] => .keep []
  | item :: rest =>
    let here := match if level = 1 then operand? "unquote-splicing" item else none with
      | some x => (Plan.elements x).map (List.map bare)
      | none => (plan lowers level item).map fun t => [t]
    here.zipWith (· ++ ·) (plans lowers level rest)

end

/-- The plan for what stands in a list for one of its elements. -/
def elementPlan (lowers : Bool) (level : Int) (item : Value) : Plan (List Tree) :=
  match if level = 1 then operand? "unquote-splicing" item else none with
  | some x => (Plan.elements x).map (List.map bare)
  | none => (plan lowers level item).map fun t => [t]

theorem plans_cons (lowers : Bool) (level : Int) (item : Value) (rest : List Value) :
    plans lowers level (item :: rest) =
      (elementPlan lowers level item).zipWith (· ++ ·) (plans lowers level rest) := by
  conv => lhs; unfold plans
  rfl

mutual

/-- A template that is made of lists and atoms. -/
def isListTemplate : Value → Bool
  | .list _ items => areListTemplates items
  | .vector _ _ | .improper _ _ _ => false
  | _ => true

def areListTemplates : List Value → Bool
  | [] => true
  | v :: rest => isListTemplate v && areListTemplates rest

end

mutual

/-- A template without unquote and unquote-splicing forms. -/
def isInert : Value → Bool
  | .list _ items =>
    match items with
    | [head, x] => !head.isSym "unquote" && !head.isSym "unquote-splicing" && areInert [head, x]
    | items => areInert items
  | _ => true

def areInert : List Value → Bool
  | [] => true
  | v :: rest => isInert v && areInert rest

end

mutual

/-- Every unquote-splicing form is an element of a list at level one, or has nothing to fill in. -/
def splicesInPlace (level : Int) : Value → Bool
  | .list _ items =>
    match items with
    | [head, x] =>
      if head.isSym "unquote" then level == 1 || splicesInPlace (level - 1) x
      else if head.isSym "quasiquote" then splicesInPlace (level + 1) x
      else if head.isSym "unquote-splicing" then isInert x
      else allSplicesInPlace level [head, x]
    | items => allSplicesInPlace level items
  | _ => true

def allSplicesInPlace (level : Int) : List Value → Bool
  | [] => true
  | item :: rest =>
    (level == 1 && (operand? "unquote-splicing" item).isSome || splicesInPlace level item) &&
      allSplicesInPlace level rest

end

section Plans

theorem operand?_eq_none {tag : String} {v : Value} (h : isInert v = true)
    (htag : tag = "unquote" ∨ tag = "unquote-splicing") : operand? tag v = none := by
  unfold operand?
  split
  · unfold isInert at h
    simp only [Bool.and_eq_true, Bool.not_eq_true'] at h
    rcases htag with rfl | rfl
    · rw [h.1.1, if_neg Bool.false_ne_true]
    · rw [h.1.2, if_neg Bool.false_ne_true]
  · rfl

mutual

/-- Without holes the level does not matter. -/
theorem plan_of_isInert (lowers : Bool) : ∀ (level : Int) {v : Value}, isInert v = true →
    plan lowers level v = .keep v.bare
  | level, .list _ [head, x], h => by
    simp only [isInert, Bool.and_eq_true, Bool.not_eq_true'] at h
    obtain ⟨⟨hunquote, hsplicing⟩, hitems⟩ := h
    have hx : isInert x = true := by
      simp only [areInert, Bool.and_eq_true] at hitems
      exact hitems.2.1
    unfold plan
    simp only [hunquote, hsplicing, Bool.and_false, Bool.false_eq_true, if_false]
    by_cases hquasi : head.isSym "quasiquote" = true
    · rw [if_pos hquasi, plan_of_isInert lowers (level + 1) hx, eq_sym_of_isSym hquasi,
        Plan.map_keep, bare_list]
      rfl
    · rw [if_neg hquasi, plans_of_areInert lowers level hitems, Plan.map_keep, bare_list]
  | level, .list _ [], h | level, .list _ [_], h | level, .list _ (_ :: _ :: _ :: _), h => by
    unfold plan
    dsimp only
    rw [plans_of_areInert lowers level h, Plan.map_keep, bare_list]
  | _, .bool _, _ | _, .int _, _ | _, .real _ _, _ | _, .str _ _, _ | _, .char _, _
  | _, .sym _, _ | _, .vector _ _, _ | _, .improper _ _ _, _ | _, .object _ _, _ => by
    unfold plan
    rfl

theorem plans_of_areInert (lowers : Bool) : ∀ (level : Int) {vs : List Value},
    areInert vs = true → plans lowers level vs = .keep (vs.map bare)
  | _, [], _ => by
    unfold plans
    rfl
  | level, item :: rest, h => by
    obtain ⟨hitem, hrest⟩ := Bool.and_eq_true_iff.mp h
    have hnone : (if level = 1 then operand? "unquote-splicing" item else none) = none := by
      rw [operand?_eq_none hitem (.inr rfl), ite_self]
    rw [plans_cons, elementPlan, hnone, plan_of_isInert lowers level hitem,
      plans_of_areInert lowers level hrest]
    rfl

end

mutual

/-- Where every unquote-splicing form is in its place, it does not matter whether those that stay
lower the level. -/
theorem plan_of_splicesInPlace : ∀ (level : Int) {v : Value}, splicesInPlace level v = true →
    plan true level v = plan false level v
  | level, .list _ [head, x], h => by
    unfold splicesInPlace at h
    dsimp only at h
    unfold plan
    dsimp only
    by_cases hunquote : head.isSym "unquote" = true
    · rw [if_pos hunquote] at h
      rw [if_pos hunquote, if_pos hunquote]
      by_cases hone : level = 1
      · rw [if_pos hone, if_pos hone]
      · have hx := ((Bool.or_eq_true _ _).mp h).resolve_left fun h => hone (eq_of_beq h)
        rw [if_neg hone, if_neg hone, plan_of_splicesInPlace (level - 1) hx]
    rw [if_neg hunquote] at h
    rw [if_neg hunquote, if_neg hunquote]
    by_cases hquasi : head.isSym "quasiquote" = true
    · rw [if_pos hquasi] at h
      rw [if_pos hquasi, if_pos hquasi, plan_of_splicesInPlace (level + 1) h]
    rw [if_neg hquasi] at h
    rw [if_neg hquasi, if_neg hquasi]
    by_cases hsplicing : head.isSym "unquote-splicing" = true
    · rw [if_pos hsplicing] at h
      have hitems : areInert [head, x] = true := by
        rw [eq_sym_of_isSym hsplicing]
        exact Bool.and_eq_true_iff.mpr ⟨rfl, Bool.and_eq_true_iff.mpr ⟨h, rfl⟩⟩
      rw [Bool.true_and, if_pos hsplicing, Bool.false_and, if_neg Bool.false_ne_true,
        plan_of_isInert true (level - 1) h, plans_of_areInert false level hitems,
        eq_sym_of_isSym hsplicing]
      rfl
    · rw [if_neg hsplicing] at h
      rw [Bool.true_and, if_neg hsplicing, Bool.false_and, if_neg Bool.false_ne_true,
        plans_of_splicesInPlace level h]
  | level, .list _ [], h | level, .list _ [_], h | level, .list _ (_ :: _ :: _ :: _), h => by
    unfold plan
    dsimp only
    rw [plans_of_splicesInPlace level h]
  | _, .bool _, _ | _, .int _, _ | _, .real _ _, _ | _, .str _ _, _ | _, .char _, _
  | _, .sym _, _ | _, .vector _ _, _ | _, .improper _ _ _, _ | _, .object _ _, _ => by
    unfold plan
    rfl

theorem plans_of_splicesInPlace : ∀ (level : Int) {vs : List Value},
    allSplicesInPlace level vs = true → plans true level vs = plans false level vs
  | _, [], _ => by
    unfold plans
    rfl
  | level, item :: rest, h => by
    obtain ⟨hitem, hrest⟩ := Bool.and_eq_true_iff.mp h
    rw [plans_cons, plans_cons, plans_of_splicesInPlace level hrest]
    unfold elementPlan
    rcases (Bool.or_eq_true _ _).mp hitem with hspliced | hkept
    · obtain ⟨hone, hsome⟩ := Bool.and_eq_true_iff.mp hspliced
      obtain ⟨x, hx⟩ := Option.isSome_iff_exists.mp hsome
      rw [if_pos (eq_of_beq hone), hx]
    · rw [plan_of_splicesInPlace level hkept]

end

end Plans

section Run

variable {g : Engine} {s : Scope}

theorem Guides.tagged {p : Plan Tree} {x : Run Value} (hx : p.Guides bare g s x) (tag : String) :
    (p.map (tagged tag)).Guides bare g s (do
      let inner ← x
      Run.newList [.sym tag, inner]) :=
  hx.map fun _ m => ⟨_, 1, Run.newList_eq _ m, bare_list _ _⟩

theorem Guides.newList {p : Plan (List Tree)} {x : Run (List Value)}
    (hx : p.Guides (List.map bare) g s x) :
    (p.map (.list ())).Guides bare g s (do Run.newList (← x)) :=
  hx.map fun items m => ⟨_, 1, Run.newList_eq items m, bare_list _ items⟩

theorem guides_element (level : Nat) {item : Value}
    (hitem : (plan false level item).Guides bare g s (template g s level item)) :
    (elementPlan false level item).Guides (List.map bare) g s (element g s level item) := by
  have hone : (level : Int) = 1 ↔ level = 1 := by omega
  unfold elementPlan element
  simp only [hone]
  cases if level = 1 then operand? "unquote-splicing" item else none with
  | some x => exact Plan.guides_elements (List.map bare) x
  | none => exact hitem.map fun v m => ⟨[v], 0, rfl, rfl⟩

mutual

/-- Levels in a run are counted from one, and unquote-splicing forms that stay do not lower them. -/
theorem guides_template (g : Engine) (s : Scope) : ∀ (level : Nat), 1 ≤ level → ∀ {v : Value},
    isListTemplate v = true → (plan false level v).Guides bare g s (template g s level v)
  | level, hlevel, .list _ [head, x], hv => by
    have hx : isListTemplate x = true := by
      simp only [isListTemplate, areListTemplates, Bool.and_true, Bool.and_eq_true] at hv
      exact hv.2
    unfold template plan
    dsimp only
    by_cases hunquote : head.isSym "unquote" = true
    · rw [if_pos hunquote, if_pos hunquote]
      by_cases hone : level = 1
      · subst hone
        exact Plan.guides_value bare x
      · -- the run counts levels from one, so the truncated difference is the difference
        have hlower := guides_template g s (level - 1) (by omega) hx
        rw [Int.natCast_sub hlevel] at hlower
        rw [if_neg hone, if_neg (by omega)]
        exact Guides.tagged hlower "unquote"
    · rw [if_neg hunquote, if_neg hunquote]
      by_cases hquasi : head.isSym "quasiquote" = true
      · rw [if_pos hquasi, if_pos hquasi]
        exact Guides.tagged (guides_template g s (level + 1) (by omega) hx) "quasiquote"
      · rw [if_neg hquasi, if_neg hquasi]
        exact Guides.newList (guides_templates g s level hlevel hv)
  | level, hlevel, .list _ [], hv | level, hlevel, .list _ [_], hv
  | level, hlevel, .list _ (_ :: _ :: _ :: _), hv => by
    unfold template plan
    exact Guides.newList (guides_templates g s level hlevel hv)
  | _, _, .bool _, _ | _, _, .int _, _ | _, _, .real _ _, _ | _, _, .str _ _, _ | _, _, .char _, _
  | _, _, .sym _, _ | _, _, .object _ _, _ => by
    unfold template plan
    exact Plan.guides_pure bare _

theorem guides_templates (g : Engine) (s : Scope) : ∀ (level : Nat), 1 ≤ level →
    ∀ {vs : List Value}, areListTemplates vs = true →
      (plans false level vs).Guides (List.map bare) g s (templates g s level vs)
  | level, hlevel, [], _ => by
    unfold templates plans
    exact Plan.guides_pure (List.map bare) []
  | level, hlevel, item :: rest, hvs => by
    obtain ⟨hitem, hrest⟩ := Bool.and_eq_true_iff.mp hvs
    have hfollow : ∀ here : List Value,
        ((plans false level rest).map ((here.map bare) ++ ·)).Guides (List.map bare) g s
          (do return here ++ (← templates g s level rest)) := fun here =>
      (guides_templates g s level hlevel hrest).map fun more m =>
        ⟨_, 0, rfl, List.map_append⟩
    rw [templates_cons, plans_cons]
    exact Plan.Guides.bind (guides_element level (guides_template g s level hlevel hitem)) hfollow

end

end Run

end Quasiquote

namespace Engine

theorem eval_quasiquote {s : Scope} {m : Machine}
    (h : Run.keyword? (.sym "quasiquote") s m = .ok (some (.form .quasiquote)) m)
    (allowance : Nat) (tag : Identity) (v : Value) :
    (ofAllowance (allowance + 1)).eval (.list tag [.sym "quasiquote", v]) s m =
      Quasiquote.template (ofAllowance allowance) s 1 v m := by
  rw [eval_keyword h, SpecialForm.run]
  simp only [bind_assoc, pure_bind, finish, bind_pure]

/-- For a template made of lists and atoms, exactly the operands that reach level zero are
evaluated, from left to right, their values stand in the places of the unquotes and their elements
in those of the splices, and all else is copied. Unquote-splicing forms that stay do not lower the
level, which makes no difference where every one of them is in its place. -/
theorem eval_quasiquote_levels {s : Scope} {m : Machine} {v : Value}
    (h : Run.keyword? (.sym "quasiquote") s m = .ok (some (.form .quasiquote)) m)
    (hv : Quasiquote.isListTemplate v = true) (allowance : Nat) (tag : Identity) :
    (Quasiquote.plan false 1 v).Yields bare (ofAllowance allowance) s m
      ((ofAllowance (allowance + 1)).eval (.list tag [.sym "quasiquote", v]) s m) ∧
    (Quasiquote.splicesInPlace 1 v = true →
      (Quasiquote.plan true 1 v).Yields bare (ofAllowance allowance) s m
        ((ofAllowance (allowance + 1)).eval (.list tag [.sym "quasiquote", v]) s m)) := by
  have hplan := Quasiquote.guides_template (ofAllowance allowance) s 1 (Nat.le_refl 1) hv m
  rw [eval_quasiquote h]
  refine ⟨hplan, fun hplace => ?_⟩
  rw [Quasiquote.plan_of_splicesInPlace 1 hplace]
  exact hplan

/-- The template in `(1 ,@'(2 3) `(4 ,(5 ,'six ,@'(7))))`. -/
def nestedTemplate : Value :=
  let list (items : List Value) : Value := .list .symbolName items
  let quoted (v : Value) : Value := list [.sym "quote", v]
  let unquoted (v : Value) : Value := list [.sym "unquote", v]
  let spliced (items : List Value) : Value := list [.sym "unquote-splicing", quoted (list items)]
  list [.int 1, spliced [.int 2, .int 3], list [.sym "quasiquote",
    list [.int 4, unquoted (list [.int 5, unquoted (quoted (.sym "six")), spliced [.int 7]])]]]

/-- Three operands reach level zero, two of them from level two. -/
theorem eval_quasiquote_levels_nested :
    Quasiquote.isListTemplate nestedTemplate = true ∧
    Quasiquote.splicesInPlace 1 nestedTemplate = true ∧
    (Quasiquote.plan true 1 nestedTemplate).holes.length = 3 ∧
    ∃ vs n, Answers (ofAllowance 9) (.ofModule Machine.defaultId)
        (Quasiquote.plan true 1 nestedTemplate).holes (.initial "2.10" true .empty) vs n ∧
      (Quasiquote.plan true 1 nestedTemplate).build vs =
        .list () [.int 1, .int 2, .int 3, .list () [.sym "quasiquote", .list () [.int 4,
          .list () [.sym "unquote", .list () [.int 5, .sym "six", .int 7]]]]] := by
  let m := Machine.initial "2.10" true .empty
  let s := Scope.ofModule Machine.defaultId
  have hkeyword : Run.keyword? (.sym "quasiquote") s m = .ok (some (.form .quasiquote)) m := rfl
  have hlist : Quasiquote.isListTemplate nestedTemplate = true := rfl
  have hplace : Quasiquote.splicesInPlace 1 nestedTemplate = true := rfl
  have hrun : ∃ r n, (ofAllowance 10).eval (.list .symbolName [.sym "quasiquote", nestedTemplate])
      s m = .ok r n ∧ r.bare = .list () [.int 1, .int 2, .int 3, .list () [.sym "quasiquote",
        .list () [.int 4, .list () [.sym "unquote", .list () [.int 5, .sym "six", .int 7]]]]] :=
    ⟨_, _, rfl, rfl⟩
  obtain ⟨r, n, hrun, hbare⟩ := hrun
  have hyields := (eval_quasiquote_levels hkeyword hlist 9 .symbolName).2 hplace
  rw [hrun] at hyields
  obtain ⟨vs, hanswers, hbuild⟩ := hyields
  exact ⟨hlist, hplace, rfl, vs, n, hanswers, hbuild.symm.trans hbare⟩

end Engine

end LiveScheme
