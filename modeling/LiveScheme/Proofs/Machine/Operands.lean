import LiveScheme.Evaluator.Basic
import LiveScheme.Proofs.Machine.Becomes

/-!
# Operands that are refused

A few operations go to work on their operands without a check of their own, and fault on those that
they cannot work on. What each of them refuses, and with which fault, is told here from the operands
and, where files are concerned, from the machine. Every other operand is either worked on or met
with an error of the language.
-/

namespace LiveScheme

/-- The fault that a computation ends with. -/
def Fault.of? {α : Type} : Except Fault α → Option Fault
  | .ok _ => none
  | .error f => some f

/-! ### Files -/

namespace Machine

/-- A file that is read, up to the first escape in it that denotes no character. -/
def loadRefusal? (m : Machine) (path : String) : Option Fault :=
  if path.toList.contains '\x00' then some .zeroByteInName
  else match m.disk.read path with
    | .error _ => none
    | .ok text =>
      match Datum.readAll (String.ofList (Text.unifyLineEnds text.toList)) with
      | .error (.fault f) => some f
      | _ => none

/-- A file that is written to. -/
def appendRefusal? (m : Machine) (path text : String) : Option Fault :=
  if path.toList.contains '\x00' then some .zeroByteInName
  else match m.disk.append path text with
    | .error problem => some (.file problem (Text.quotedString path))
    | .ok _ => none

/-- A file that a library includes. -/
def includeRefusal? (m : Machine) (v : Value) : Option Fault :=
  match v.text? with
  | some path => m.loadRefusal? (String.ofList path)
  | none => some .badFileName

end Machine

/-! ### Forms -/

namespace Form

/-- A definition head without a first element. -/
def headRefusal? : Value → Option Fault
  | .list _ (_ :: _) | .vector _ (_ :: _) | .improper _ (_ :: _) _ => none
  | .list _ [] | .vector _ [] | .improper _ [] _ => some .emptySequence
  | .str _ text => some (if text.isEmpty then .offEnd else .noName)
  | .char _ => some .noName
  | v => some (.noFirst v.kindWord)

/-- The clauses of a case, up to the one that is chosen: keys that are no sequence. -/
def clausesRefusal? (key : Value) : List Value → Option Fault
  | [] => none
  | clause :: rest =>
    match clause.elements? with
    | some (data :: _) =>
      if data.isSym "else" then none
      else match clauseKeys data with
        | .error f => some f
        | .ok keys => if keys.any key.isEqv then none else clausesRefusal? key rest
    | _ => none

end Form

/-! ### Procedures -/

namespace Primitive

def numbers? (args : List Value) : Option (List Number) := args.mapM Value.number?

def foldRefusal? (op : Number → Number → Except Fault Number) (start : Number) :
    List Number → Option Fault
  | [] => none
  | n :: rest =>
    match op start n with
    | .ok a => foldRefusal? op a rest
    | .error f => some f

/-- Divisors up to the first that is zero. -/
def divideRefusal? (n : Number) : List Number → Option Fault
  | [] => none
  | d :: rest =>
    if d.isZero then none
    else match n.div d with
      | .ok q => divideRefusal? q rest
      | .error f => some f

def divisionRefusal? (op : Number → Number → Except Fault Number) : List Number → Option Fault
  | [n, d] => if d.isZero then none else Fault.of? (op n d)
  | _ => none

/-- A pair without a first element. -/
def pairRefusal? : Value → Option Fault
  | .improper _ [] _ => some .emptySequence
  | _ => none

/-- The entries of an association list, up to the one that is found. -/
def entriesRefusal? (same : Value → Value → Bool) (x : Value) : List Value → Option Fault
  | [] => none
  | entry :: rest =>
    match entry with
    | .list _ (key :: _) | .improper _ (key :: _) _ =>
      if same x key then none else entriesRefusal? same x rest
    | entry => pairRefusal? entry

def boundRefusal? (v : Value) : Option Fault :=
  match v.index? with
  | some _ => none
  | none => some .badBound

/-- What has no elements to make a list of. -/
def elementsRefusal? : Value → Option Fault
  | .list _ _ | .vector _ _ | .str _ _ | .char _ | .improper _ _ _ => none
  | v => some (.noElements v.kindWord)

end Primitive

open Primitive in
/-- What a built-in procedure refuses on a machine. -/
def Builtin.refusal? (m : Machine) (args : List Value) : Builtin → Option Fault
  | add => (numbers? args).bind (foldRefusal? Number.add (.int 0))
  | mul => (numbers? args).bind (foldRefusal? Number.mul (.int 1))
  | sub => (numbers? args).bind fun
    | n :: rest => foldRefusal? Number.sub n rest
    | [] => none
  | div => (numbers? args).bind fun
    | [n] => divideRefusal? (.int 1) [n]
    | n :: rest => divideRefusal? n rest
    | [] => none
  | quotient => (numbers? args).bind (divisionRefusal? Number.quotient)
  | remainder => (numbers? args).bind (divisionRefusal? Number.remainder)
  | modulo => (numbers? args).bind (divisionRefusal? Number.modulo)
  | isInteger =>
    match args with
    | [v] => v.number?.bind fun n => Fault.of? n.isWhole
    | _ => none
  | car =>
    match args with
    | [v] => pairRefusal? v
    | _ => none
  | cadr =>
    match args with
    | [.improper _ [] tail] | [.improper _ [_] tail] => pairRefusal? tail
    | _ => none
  | caar =>
    match args with
    | [.list _ (x :: _)] | [.improper _ (x :: _) _] => pairRefusal? x
    | [v] => pairRefusal? v
    | _ => none
  | assq =>
    match args with
    | [x, .list _ entries] => entriesRefusal? Value.isEqv x entries
    | _ => none
  | assoc =>
    match args with
    | [x, .list _ entries] => entriesRefusal? Value.isEqual x entries
    | _ => none
  | substring =>
    match args with
    | [.str _ _, first] => boundRefusal? first
    | [.str _ _, first, last] => (boundRefusal? first).or (boundRefusal? last)
    | _ => none
  | vectorToList =>
    match args with
    | [v] => elementsRefusal? v
    | _ => none
  | load =>
    match args with
    | [.str _ path] => m.loadRefusal? path
    | _ => none
  | _ => none

/-! ### Refused operands fault -/

theorem Fault.of?_eq_some {α : Type} {r : Except Fault α} {f : Fault} (h : Fault.of? r = some f) :
    r = .error f := by
  cases r with
  | ok a => cases h
  | error f' => cases h; rfl

open Run

variable {g : Engine} {m : Machine} {f : Fault}

namespace Engine

/-- What is done with a file that was looked for. -/
def loadFound (g : Engine) (path : String) (home : Nat) : Except FileProblem String → Run Unit
  | .error problem => Run.fail (.cannotLoad path problem)
  | .ok text =>
    Run.within home do
      g.runInCurrent
        (← Run.ofRead (Datum.readAll (String.ofList (Text.unifyLineEnds text.toList))))

theorem load_eq (g : Engine) (path : String) (home : Option Nat) :
    g.load path home = (do
      let m ← get
      if path.toList.contains '\x00' then do
        Run.faulty .zeroByteInName
        g.loadFound path (home.getD m.current) (m.disk.read path)
      else g.loadFound path (home.getD m.current) (m.disk.read path)) := rfl

theorem load_of_refusal {path : String} (h : m.loadRefusal? path = some f) (home : Option Nat) :
    g.load path home m = .error (.fault f) m := by
  unfold Machine.loadRefusal? at h
  rw [load_eq, get_bind]
  split at h
  · next hzero =>
    cases h
    rw [if_pos hzero]
    rfl
  · next hzero =>
    rw [if_neg hzero]
    split at h
    · cases h
    · next text htext =>
      split at h
      · next f' hread =>
        cases h
        rw [htext]
        refine within_of_error (n := { m with current := home.getD m.current }) ?_
        rw [hread]
        rfl
      · cases h

end Engine

theorem Run.appendTo_of_refusal {path text : String} (h : m.appendRefusal? path text = some f) :
    appendTo path text m = .error (.fault f) m := by
  unfold Machine.appendRefusal? at h
  split at h
  · next hzero =>
    cases h
    unfold appendTo
    rw [if_pos hzero]
    rfl
  · next hzero =>
    rw [appendTo_of_noZero text m (by simpa using hzero)]
    split at h
    · next problem hproblem =>
      cases h
      rw [hproblem]
    · cases h

theorem Run.appendTo_of_not_refused {path text : String} (h : m.appendRefusal? path text = none) :
    ∃ disk, appendTo path text m = .ok () { m with disk } := by
  unfold Machine.appendRefusal? at h
  split at h
  · cases h
  · next hzero =>
    split at h
    · cases h
    · next disk hdisk => exact ⟨disk, appendTo_of_ok (by simpa using hzero) hdisk⟩

namespace Form

theorem splitHead_of_refusal {spec : Value} (h : headRefusal? spec = some f) :
    splitHead spec m = .error (.fault f) m := by
  cases spec with
  | list tag items | vector tag items =>
    cases items with
    | nil => cases h; rfl
    | cons head params => cases h
  | improper tag items tail =>
    cases items with
    | nil => cases h; rfl
    | cons head params => cases h
  | str tag text =>
    cases h
    unfold splitHead
    dsimp only
    split <;> rfl
  | bool | int | real | char | sym | object => cases h; rfl

theorem caseClauses_of_refusal {s : Scope} {key : Value} {clauses : List Value}
    (h : clausesRefusal? key clauses = some f) :
    caseClauses g s key clauses m = .error (.fault f) m := by
  induction clauses with
  | nil => cases h
  | cons clause rest ih =>
    unfold clausesRefusal? at h
    unfold caseClauses
    split at h
    · next data forms hclause =>
      split at h
      · cases h
      · next helse =>
        simp only [hclause, if_neg helse]
        split at h
        · next f' hkeys =>
          cases h
          rw [hkeys]
          rfl
        · next keys hkeys =>
          split at h
          · cases h
          · next hnone =>
            rw [hkeys]
            refine (bind_of_ok rfl).trans ?_
            rw [if_neg hnone]
            exact ih h
    · cases h

/-- A library includes its files one after another. -/
theorem includeFiles_cons (g : Engine) (id : Nat) (v : Value) (rest : List Value) :
    includeFiles g id (v :: rest) =
      includeFiles g id [v] >>= fun _ => includeFiles g id rest := by
  simp only [includeFiles]
  cases v.text? <;> simp

theorem includeFiles_of_refusal {id : Nat} {v : Value} (h : m.includeRefusal? v = some f) :
    includeFiles g id [v] m = .error (.fault f) m := by
  unfold Machine.includeRefusal? at h
  unfold includeFiles
  cases hv : v.text? with
  | some path =>
    rw [hv] at h
    exact bind_of_error (Engine.load_of_refusal h _)
  | none =>
    rw [hv] at h
    cases h
    rfl

end Form

namespace Primitive

theorem numbers?_cons_eq_some {v : Value} {rest : List Value} {ns : List Number} :
    numbers? (v :: rest) = some ns ↔
      ∃ n ns', v.number? = some n ∧ numbers? rest = some ns' ∧ n :: ns' = ns := by
  simp [numbers?, Option.bind_eq_some_iff]

theorem numbers_of_numbers? {who : String} {args : List Value} {ns : List Number}
    (h : numbers? args = some ns) : numbers who args m = .ok ns m := by
  induction args generalizing ns with
  | nil => cases h; rfl
  | cons v rest ih =>
    obtain ⟨n, ns', hn, hns, rfl⟩ := numbers?_cons_eq_some.mp h
    unfold numbers
    rw [hn]
    exact bind_of_ok (ih hns)

theorem foldNumbers_of_refusal {op : Number → Number → Except Fault Number} {start : Number}
    {ns : List Number} (h : foldRefusal? op start ns = some f) :
    foldNumbers op start ns m = .error (.fault f) m := by
  induction ns generalizing start with
  | nil => cases h
  | cons n rest ih =>
    unfold foldRefusal? at h
    unfold foldNumbers
    cases hop : op start n with
    | ok a =>
      rw [hop] at h
      exact (bind_of_ok rfl).trans (ih h)
    | error f' =>
      rw [hop] at h
      cases h
      rfl

theorem divideBy_of_refusal {n : Number} {ds : List Number} (h : divideRefusal? n ds = some f) :
    divideBy n ds m = .error (.fault f) m := by
  induction ds generalizing n with
  | nil => cases h
  | cons d rest ih =>
    unfold divideRefusal? at h
    unfold divideBy
    split at h
    · cases h
    · next hzero =>
      rw [if_neg hzero]
      cases hdiv : n.div d with
      | ok q =>
        rw [hdiv] at h
        exact (bind_of_ok rfl).trans (ih h)
      | error f' =>
        rw [hdiv] at h
        cases h
        rfl

theorem findEntry_of_refusal {same : Value → Value → Bool} {x : Value} {entries : List Value}
    (h : entriesRefusal? same x entries = some f) :
    findEntry same x entries m = .error (.fault f) m := by
  induction entries with
  | nil => cases h
  | cons entry rest ih =>
    unfold entriesRefusal? at h
    unfold findEntry
    split at h
    · split at h
      · cases h
      · next hsame =>
        refine (bind_of_ok rfl).trans ?_
        rw [if_neg hsame]
        exact ih h
    · split at h
      · cases h
      · next hsame =>
        refine (bind_of_ok rfl).trans ?_
        rw [if_neg hsame]
        exact ih h
    · unfold pairRefusal? at h
      split at h
      · cases h
        rfl
      · cases h

theorem boundArg_of_refusal {v : Value} (h : boundRefusal? v = some f) :
    boundArg v m = .error (.fault f) m := by
  unfold boundRefusal? at h
  unfold boundArg
  cases hv : v.index? with
  | some n => rw [hv] at h; cases h
  | none => rw [hv] at h; cases h; rfl

theorem checkCount_of {who : String} {low : Nat} {high : Option Nat} {args : List Value}
    (hlow : low ≤ args.length) (hhigh : ∀ n ∈ high, args.length ≤ n) :
    checkCount who low high args m = .ok () m := by
  unfold checkCount
  rw [if_neg]
  · rfl
  · cases high with
    | none => simpa using hlow
    | some n => simpa [hlow] using hhigh n rfl

theorem length_of_numbers? {args : List Value} {ns : List Number} (h : numbers? args = some ns) :
    ns.length = args.length := by
  induction args generalizing ns with
  | nil => cases h; rfl
  | cons v rest ih =>
    obtain ⟨n, ns', -, hns, rfl⟩ := numbers?_cons_eq_some.mp h
    simp [ih hns]

/-- Numbers of the right count are what a procedure of numbers goes on with. -/
theorem numbers_of_count {α : Type} {who : String} {low : Nat} {high : Option Nat}
    {args : List Value} {ns : List Number} (hns : numbers? args = some ns) (hlow : low ≤ ns.length)
    (hhigh : ∀ n ∈ high, ns.length ≤ n) (k : List Number → Run α) :
    (checkCount who low high args >>= fun _ => numbers who args >>= k) m = k ns m := by
  rw [length_of_numbers? hns] at hlow hhigh
  exact (bind_of_ok (checkCount_of hlow hhigh)).trans (bind_of_ok (numbers_of_numbers? hns))

theorem sum_of_refusal {args : List Value}
    (h : (numbers? args).bind (foldRefusal? Number.add (.int 0)) = some f) :
    sum args m = .error (.fault f) m := by
  obtain ⟨ns, hns, h⟩ := Option.bind_eq_some_iff.mp h
  exact (bind_of_ok (numbers_of_numbers? hns)).trans (bind_of_error (foldNumbers_of_refusal h))

theorem product_of_refusal {args : List Value}
    (h : (numbers? args).bind (foldRefusal? Number.mul (.int 1)) = some f) :
    product args m = .error (.fault f) m := by
  obtain ⟨ns, hns, h⟩ := Option.bind_eq_some_iff.mp h
  exact (bind_of_ok (numbers_of_numbers? hns)).trans (bind_of_error (foldNumbers_of_refusal h))

theorem difference_of_refusal {args : List Value}
    (h : Builtin.sub.refusal? m args = some f) : difference args m = .error (.fault f) m := by
  obtain ⟨ns, hns, h⟩ := Option.bind_eq_some_iff.mp h
  cases ns with
  | nil => cases h
  | cons n rest =>
    refine (numbers_of_count hns (by simp) (by simp) _).trans ?_
    cases rest with
    | nil => cases h
    | cons d rest => exact bind_of_error (foldNumbers_of_refusal h)

theorem ratio_of_refusal {args : List Value}
    (h : Builtin.div.refusal? m args = some f) : ratio args m = .error (.fault f) m := by
  obtain ⟨ns, hns, h⟩ := Option.bind_eq_some_iff.mp h
  cases ns with
  | nil => cases h
  | cons n rest =>
    refine (numbers_of_count hns (by simp) (by simp) _).trans ?_
    cases rest with
    | nil => exact bind_of_error (divideBy_of_refusal h)
    | cons d rest => exact bind_of_error (divideBy_of_refusal h)

theorem integerDivision_of_refusal {who : String} {op : Number → Number → Except Fault Number}
    {args : List Value} (h : (numbers? args).bind (divisionRefusal? op) = some f) :
    integerDivision who op args m = .error (.fault f) m := by
  obtain ⟨ns, hns, h⟩ := Option.bind_eq_some_iff.mp h
  unfold divisionRefusal? at h
  split at h
  · next n d =>
    split at h
    · cases h
    · next hzero =>
      refine (numbers_of_count hns (by simp) (by simp) _).trans ?_
      dsimp only
      rw [if_neg hzero, Fault.of?_eq_some h]
      rfl
  · cases h

theorem carOf_of_refusal {v : Value} (h : pairRefusal? v = some f) :
    carOf v m = .error (.fault f) m := by
  unfold pairRefusal? at h
  split at h
  · cases h
    rfl
  · cases h

theorem assoc_of_refusal {who : String} {same : Value → Value → Bool} {x : Value} {tag : Identity}
    {entries : List Value} (h : entriesRefusal? same x entries = some f) :
    assoc who same [x, .list tag entries] m = .error (.fault f) m := findEntry_of_refusal h

theorem substring_of_refusal {args : List Value} (h : Builtin.substring.refusal? m args = some f) :
    substring args m = .error (.fault f) m := by
  unfold Builtin.refusal? at h
  dsimp only at h
  split at h
  · exact (bind_of_ok rfl).trans ((bind_of_ok rfl).trans (bind_of_error (boundArg_of_refusal h)))
  · next first last =>
    refine (bind_of_ok rfl).trans ((bind_of_ok rfl).trans ?_)
    cases hfirst : first.index? with
    | none =>
      have hrefused : boundRefusal? first = some .badBound := by rw [boundRefusal?, hfirst]
      rw [hrefused] at h
      cases h
      exact bind_of_error (boundArg_of_refusal hrefused)
    | some n =>
      rw [boundRefusal?, hfirst] at h
      have hn : boundArg first m = .ok n m := by rw [boundArg, hfirst]; rfl
      exact (bind_of_ok hn).trans (bind_of_error (boundArg_of_refusal h))
  · cases h

theorem vectorToList_of_refusal {v : Value} (h : elementsRefusal? v = some f) :
    vectorToList [v] m = .error (.fault f) m := by
  cases v with
  | list | vector | str | char | improper => cases h
  | bool | int | real | sym | object => cases h; rfl

end Primitive

/-- A refused operand makes a built-in procedure fault before it has done anything. -/
theorem Builtin.call_of_refusal {b : Builtin} {args : List Value}
    (h : b.refusal? m args = some f) (s : Scope) : b.call g s args m = .error (.fault f) m := by
  cases b
  case add => exact Primitive.sum_of_refusal h
  case mul => exact Primitive.product_of_refusal h
  case sub => exact Primitive.difference_of_refusal h
  case div => exact Primitive.ratio_of_refusal h
  case quotient | remainder | modulo => exact Primitive.integerDivision_of_refusal h
  case substring => exact Primitive.substring_of_refusal h
  case isInteger =>
    unfold refusal? at h
    dsimp only at h
    split at h
    · next v =>
      obtain ⟨n, hn, h⟩ := Option.bind_eq_some_iff.mp h
      refine (bind_of_ok rfl).trans (bind_of_error ?_)
      rw [Primitive.isWhole, hn]
      dsimp only
      rw [Fault.of?_eq_some h]
      rfl
    · cases h
  case car =>
    unfold refusal? at h
    dsimp only at h
    split at h
    · exact (bind_of_ok rfl).trans (Primitive.carOf_of_refusal h)
    · cases h
  case cadr =>
    unfold refusal? at h
    dsimp only at h
    split at h
    · exact (bind_of_ok rfl).trans (Primitive.carOf_of_refusal h)
    · exact (bind_of_ok rfl).trans (Primitive.carOf_of_refusal h)
    · cases h
  case caar =>
    unfold refusal? at h
    dsimp only at h
    split at h
    · exact (bind_of_ok rfl).trans (Primitive.carOf_of_refusal h)
    · exact (bind_of_ok rfl).trans (Primitive.carOf_of_refusal h)
    · exact bind_of_error ((bind_of_ok rfl).trans (Primitive.carOf_of_refusal h))
    · cases h
  case assq | assoc =>
    unfold refusal? at h
    dsimp only at h
    split at h
    · exact Primitive.assoc_of_refusal h
    · cases h
  case vectorToList =>
    unfold refusal? at h
    dsimp only at h
    split at h
    · exact Primitive.vectorToList_of_refusal h
    · cases h
  case load =>
    unfold refusal? at h
    dsimp only at h
    split at h
    · refine (bind_of_ok rfl).trans ((bind_of_ok rfl).trans ?_)
      exact bind_of_error (Engine.load_of_refusal h none)
    · cases h
  all_goals cases h

end LiveScheme
