import LiveScheme.Proofs.Template.Levels

/-!
# Templates as pairs

A list is a chain of pairs that ends in the empty list, and a dotted list one that ends in something
else; an unquote is an unquote also where it stands as the rest of a list. A quasiquotation without
nested quasiquotations and splices comes to the same pairs, vectors and atoms with the values of the
operands in the places of the unquotes, as long as each dotted tail is an atom and no unquote stands
as the rest of a list: the reader writes such an unquote as the last two elements of the list, where
it is not found again, and a vector as a tail is taken apart.
-/

namespace LiveScheme

open Node

/-- Data as pairs, vectors and atoms. -/
inductive Cell
  | atom (v : Tree)
  | nil
  | pair (head tail : Cell)
  | vector (items : List Cell)

/-- The chain of pairs that holds the elements and goes on with the tail. -/
def Cell.chain (items : List Cell) (tail : Cell) : Cell := items.foldr .pair tail

namespace Node

mutual

def cells : Value → Cell
  | .list _ items => .chain (cellsOf items) .nil
  | .improper _ items tail => .chain (cellsOf items) (cells tail)
  | .vector _ items => .vector (cellsOf items)
  | v => .atom v.bare

def cellsOf : List Value → List Cell
  | [] => []
  | v :: rest => cells v :: cellsOf rest

end

/-- Neither a list nor a vector nor a dotted list. -/
def isAtom : Value → Bool
  | .list _ _ | .vector _ _ | .improper _ _ _ => false
  | _ => true

end Node

namespace Quasiquote

mutual

/-- What is to be evaluated in a template of pairs, vectors and atoms, and what it comes to. -/
def pairPlan : Value → Plan Cell
  | .list _ items => chainPlan items
  | .improper _ items tail => (pairPlans items).zipWith .chain (pairPlan tail)
  | .vector _ items => (pairPlans items).map .vector
  | v => .keep (.atom v.bare)

/-- The plan for the rest of a list. -/
def chainPlan : List Value → Plan Cell
  | [] => .keep .nil
  | v :: rest =>
    match rest with
    | [x] =>
      if v.isSym "unquote" then (Plan.value x).map cells
      else (pairPlan v).zipWith .pair (chainPlan [x])
    | rest => (pairPlan v).zipWith .pair (chainPlan rest)

def pairPlans : List Value → Plan (List Cell)
  | [] => .keep []
  | v :: rest => (pairPlan v).zipWith (· :: ·) (pairPlans rest)

end

mutual

/-- Outside the operands of its unquotes, the template holds no quasiquotation and no splice. -/
def isFlat : Value → Bool
  | .list _ items =>
    match items with
    | [head, x] =>
      head.isSym "unquote" ||
        (!head.isSym "quasiquote" && !head.isSym "unquote-splicing" && areFlat [head, x])
    | items => areFlat items
  | .vector _ items => areFlat items
  | .improper _ items tail => areFlat items && isFlat tail
  | _ => true

def areFlat : List Value → Bool
  | [] => true
  | v :: rest => isFlat v && areFlat rest

end

/-- The last two elements are an unquote without its brackets. -/
def endsInUnquote : List Value → Bool
  | [] => false
  | v :: rest => v.isSym "unquote" && rest.length == 1 || endsInUnquote rest

mutual

/-- Outside the operands of its unquotes, no unquote is the rest of a list, and every dotted tail
is an atom. -/
def isStraight : Value → Bool
  | .list _ items =>
    match items with
    | [head, x] => head.isSym "unquote" || areStraight [head, x]
    | items => !endsInUnquote items && areStraight items
  | .vector _ items => areStraight items
  | .improper _ items tail => areStraight items && tail.isAtom
  | _ => true

def areStraight : List Value → Bool
  | [] => true
  | v :: rest => isStraight v && areStraight rest

end

section Plans

theorem pairPlan_of_isAtom {v : Value} (h : v.isAtom = true) : pairPlan v = .keep v.cells := by
  unfold pairPlan
  cases v with
  | list _ _ | vector _ _ | improper _ _ _ => cases h
  | _ => rfl

theorem pairPlans_cons (v : Value) (rest : List Value) :
    pairPlans (v :: rest) = (pairPlan v).zipWith (· :: ·) (pairPlans rest) := by
  conv => lhs; unfold pairPlans

/-- A list that does not end in an unquote is the chain of its elements. -/
theorem chainPlan_eq {vs : List Value} (h : endsInUnquote vs = false) :
    chainPlan vs = (pairPlans vs).map (Cell.chain · .nil) := by
  induction vs with
  | nil =>
    unfold chainPlan pairPlans
    rfl
  | cons v rest ih =>
    unfold endsInUnquote at h
    obtain ⟨hv, hrest⟩ := Bool.or_eq_false_iff.mp h
    have hchain : chainPlan (v :: rest) = (pairPlan v).zipWith .pair (chainPlan rest) := by
      conv => lhs; unfold chainPlan
      split
      · next x =>
        have hsym : v.isSym "unquote" = false := by simpa using hv
        rw [hsym, if_neg Bool.false_ne_true]
      · rfl
    rw [hchain, pairPlans_cons, ih hrest]
    rfl

mutual

/-- A template in which nothing is to be evaluated comes to itself. -/
theorem pairPlan_eq_keep : ∀ v : Value, (pairPlan v).holes = [] → pairPlan v = .keep v.cells
  | .list _ items, h => by
    unfold pairPlan at h ⊢
    exact chainPlan_eq_keep items h
  | .improper _ items tail, h => by
    unfold pairPlan at h ⊢
    exact Plan.zipWith_eq_keep h (pairPlans_eq_keep items) (pairPlan_eq_keep tail)
  | .vector _ items, h => by
    unfold pairPlan at h ⊢
    rw [pairPlans_eq_keep items h]
    rfl
  | .bool _, _ | .int _, _ | .real _ _, _ | .str _ _, _ | .char _, _ | .sym _, _
  | .object _ _, _ => pairPlan_of_isAtom rfl

theorem chainPlan_eq_keep : ∀ vs : List Value, (chainPlan vs).holes = [] →
    chainPlan vs = .keep (.chain (cellsOf vs) .nil)
  | [], _ => by
    unfold chainPlan
    rfl
  | v :: rest, h => by
    have hsplit : chainPlan (v :: rest) = (pairPlan v).zipWith .pair (chainPlan rest) := by
      unfold chainPlan at h
      conv => lhs; unfold chainPlan
      split
      · next x =>
        split
        · next hsym =>
          dsimp only at h
          rw [if_pos hsym] at h
          cases h
        · rfl
      · rfl
    rw [hsplit] at h ⊢
    exact Plan.zipWith_eq_keep h (pairPlan_eq_keep v) (chainPlan_eq_keep rest)

theorem pairPlans_eq_keep : ∀ vs : List Value, (pairPlans vs).holes = [] →
    pairPlans vs = .keep (cellsOf vs)
  | [], _ => by
    unfold pairPlans
    rfl
  | v :: rest, h => by
    rw [pairPlans_cons] at h ⊢
    exact Plan.zipWith_eq_keep h (pairPlan_eq_keep v) (pairPlans_eq_keep rest)

end

end Plans

section Run

variable {g : Engine} {s : Scope}

/-- An atom as a tail stays where it is. -/
theorem template_improper_of_isAtom {level : Nat} {tag : Identity} {items : List Value}
    {tail : Value} (h : tail.isAtom = true) :
    template g s level (.improper tag items tail) =
      (do Run.newImproper (← templates g s level items) tail) := by
  conv => lhs; unfold template
  cases tail with
  | list _ _ | vector _ _ | improper _ _ _ => cases h
  | _ =>
    conv => lhs; unfold template
    rfl

theorem operand?_of_isFlat {v : Value} (h : isFlat v = true) :
    operand? "unquote-splicing" v = none := by
  unfold operand?
  split
  · next head x =>
    split
    · next hsplicing =>
      rw [eq_sym_of_isSym hsplicing] at h
      cases h
    · rfl
  · rfl

theorem element_of_isFlat (g : Engine) (s : Scope) {v : Value} (h : isFlat v = true) :
    element g s 1 v = (do return [← template g s 1 v]) := by
  unfold element
  rw [operand?_of_isFlat h, ite_self]

theorem guides_chain {vs : List Value} (h : endsInUnquote vs = false)
    (hvs : (pairPlans vs).Guides cellsOf g s (templates g s 1 vs)) :
    (chainPlan vs).Guides cells g s (do Run.newList (← templates g s 1 vs)) := by
  rw [chainPlan_eq h]
  exact hvs.map fun ws m => ⟨_, 1, Run.newList_eq ws m, rfl⟩

mutual

theorem guides_pairPlan (g : Engine) (s : Scope) : ∀ {v : Value}, isFlat v = true →
    isStraight v = true → (pairPlan v).Guides cells g s (template g s 1 v)
  | .list _ [head, x], hflat, hstraight => by
    unfold template pairPlan
    dsimp only
    by_cases hunquote : head.isSym "unquote" = true
    · unfold chainPlan
      rw [if_pos hunquote, if_pos rfl]
      dsimp only
      rw [if_pos hunquote]
      exact Plan.guides_value cells x
    · simp only [isFlat, isStraight, hunquote, Bool.false_or, Bool.and_eq_true,
        Bool.not_eq_true'] at hflat hstraight
      obtain ⟨⟨hquasi, -⟩, hitems⟩ := hflat
      have hends : endsInUnquote [head, x] = false := by simp [endsInUnquote, hunquote]
      rw [if_neg hunquote, hquasi, if_neg Bool.false_ne_true]
      exact guides_chain hends (guides_pairPlans g s hitems hstraight)
  | .list _ [], hflat, hstraight | .list _ [_], hflat, hstraight
  | .list _ (_ :: _ :: _ :: _), hflat, hstraight => by
    unfold isStraight at hstraight
    obtain ⟨hends, hitems⟩ := Bool.and_eq_true_iff.mp hstraight
    unfold template pairPlan
    exact guides_chain (Bool.not_eq_true' _ |>.mp hends) (guides_pairPlans g s hflat hitems)
  | .vector _ items, hflat, hstraight => by
    unfold template pairPlan
    exact (guides_pairPlans g s hflat hstraight).map fun vs m => ⟨_, 1, Run.newVector_eq vs m, rfl⟩
  | .improper _ items tail, hflat, hstraight => by
    obtain ⟨hitems, -⟩ := Bool.and_eq_true_iff.mp hflat
    obtain ⟨hitems', htail⟩ := Bool.and_eq_true_iff.mp hstraight
    rw [template_improper_of_isAtom htail]
    unfold pairPlan
    rw [pairPlan_of_isAtom htail]
    refine (guides_pairPlans g s hitems hitems').bind fun vs => ?_
    rw [Plan.map_keep]
    exact Plan.guides_keep fun m => ⟨_, 1, Run.newImproper_eq vs tail m, rfl⟩
  | .bool _, _, _ | .int _, _, _ | .real _ _, _, _ | .str _ _, _, _ | .char _, _, _
  | .sym _, _, _ | .object _ _, _, _ => by
    unfold template pairPlan
    exact Plan.guides_pure cells _

theorem guides_pairPlans (g : Engine) (s : Scope) : ∀ {vs : List Value}, areFlat vs = true →
    areStraight vs = true → (pairPlans vs).Guides cellsOf g s (templates g s 1 vs)
  | [], _, _ => by
    unfold templates pairPlans
    exact Plan.guides_pure cellsOf []
  | v :: rest, hflat, hstraight => by
    obtain ⟨hv, hrest⟩ := Bool.and_eq_true_iff.mp hflat
    obtain ⟨hv', hrest'⟩ := Bool.and_eq_true_iff.mp hstraight
    rw [templates_cons, element_of_isFlat g s hv]
    unfold pairPlans
    simp only [bind_assoc, pure_bind]
    exact (guides_pairPlan g s hv hv').bind fun w =>
      (guides_pairPlans g s hrest hrest').map fun more m => ⟨_, 0, rfl, rfl⟩

end

end Run

end Quasiquote

namespace Engine

/-- A template without nested quasiquotations and splices, in which every dotted tail is an atom and
no unquote stands as the rest of a list, comes to its own pairs, vectors and atoms with the values
of the operands in the places of the unquotes. Without unquotes it comes to itself. -/
theorem eval_quasiquote_pairs {s : Scope} {m : Machine} {v : Value}
    (h : Run.keyword? (.sym "quasiquote") s m = .ok (some (.form .quasiquote)) m)
    (hflat : Quasiquote.isFlat v = true) (hstraight : Quasiquote.isStraight v = true)
    (allowance : Nat) (tag : Identity) :
    (Quasiquote.pairPlan v).Yields cells (ofAllowance allowance) s m
      ((ofAllowance (allowance + 1)).eval (.list tag [.sym "quasiquote", v]) s m) ∧
    ((Quasiquote.pairPlan v).holes = [] → ∃ r count,
      (ofAllowance (allowance + 1)).eval (.list tag [.sym "quasiquote", v]) s m =
        .ok r (m.skip count) ∧ r.cells = v.cells) := by
  have hplan := Quasiquote.guides_pairPlan (ofAllowance allowance) s hflat hstraight m
  rw [eval_quasiquote h]
  refine ⟨hplan, fun hholes => ?_⟩
  rw [Quasiquote.pairPlan_eq_keep v hholes] at hplan
  cases hrun : Quasiquote.template (ofAllowance allowance) s 1 v m with
  | error stop n =>
    rw [hrun] at hplan
    cases hplan
  | ok r n =>
    rw [hrun] at hplan
    obtain ⟨vs, hanswers, hcells⟩ := hplan
    cases hanswers with
    | done _ count => exact ⟨r, count, rfl, hcells⟩

/-- The template in `(1 ,'(2) #(3 ,'four) (5 . six))`. -/
def dottedTemplate : Value :=
  let list (items : List Value) : Value := .list .symbolName items
  let unquoted (v : Value) : Value := list [.sym "unquote", list [.sym "quote", v]]
  list [.int 1, unquoted (list [.int 2]), .vector .symbolName [.int 3, unquoted (.sym "four")],
    .improper .symbolName [.int 5] (.sym "six")]

/-- The value of the first unquote is a list and that of the second one an atom in a vector. -/
theorem eval_quasiquote_pairs_dotted :
    Quasiquote.isFlat dottedTemplate = true ∧ Quasiquote.isStraight dottedTemplate = true ∧
    (Quasiquote.pairPlan dottedTemplate).holes.length = 2 ∧
    ∃ vs n, Answers (ofAllowance 9) (.ofModule Machine.defaultId)
        (Quasiquote.pairPlan dottedTemplate).holes (.initial "2.10" true .empty) vs n ∧
      (Quasiquote.pairPlan dottedTemplate).build vs =
        .chain [.atom (.int 1), .chain [.atom (.int 2)] .nil,
          .vector [.atom (.int 3), .atom (.sym "four")],
          .chain [.atom (.int 5)] (.atom (.sym "six"))] .nil := by
  let m := Machine.initial "2.10" true .empty
  let s := Scope.ofModule Machine.defaultId
  have hkeyword : Run.keyword? (.sym "quasiquote") s m = .ok (some (.form .quasiquote)) m := rfl
  have hflat : Quasiquote.isFlat dottedTemplate = true := rfl
  have hstraight : Quasiquote.isStraight dottedTemplate = true := rfl
  have hrun : ∃ r n, (ofAllowance 10).eval (.list .symbolName [.sym "quasiquote", dottedTemplate])
      s m = .ok r n ∧ r.cells = .chain [.atom (.int 1), .chain [.atom (.int 2)] .nil,
          .vector [.atom (.int 3), .atom (.sym "four")],
          .chain [.atom (.int 5)] (.atom (.sym "six"))] .nil :=
    ⟨_, _, rfl, rfl⟩
  obtain ⟨r, n, hrun, hcells⟩ := hrun
  have hyields := (eval_quasiquote_pairs hkeyword hflat hstraight 9 .symbolName).1
  rw [hrun] at hyields
  obtain ⟨vs, hanswers, hbuild⟩ := hyields
  exact ⟨hflat, hstraight, rfl, vs, n, hanswers, hbuild.symm.trans hcells⟩

end Engine

end LiveScheme
