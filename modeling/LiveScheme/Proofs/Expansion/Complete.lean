import LiveScheme.Proofs.Application.Let
import LiveScheme.Proofs.Expansion.Rebuilt

/-!
# Complete expansion

Where expanders leave nothing behind but what they make, full expansion leaves no expander at the
head of a list it has gone through, with one exception: it looks for an expander at the head of a
form before it expands the head itself, so a head that is no symbol may become one that denotes an
expander. Where this does not happen the result is expanded for good, and expanding it again gives
the same data.
-/

namespace LiveScheme

open Node

/-- The machine with more frames, closures and identities. -/
def Machine.Extends (n m : Machine) : Prop :=
  ∃ (frames : Array (Table Value)) (closures : Array Closure) (count : Nat),
    n = { m with
      frames := m.frames ++ frames
      closures := m.closures ++ closures
      nextTag := m.nextTag + count }

namespace Machine.Extends

variable {k m n : Machine}

theorem refl (m : Machine) : m.Extends m := ⟨#[], #[], 0, by simp⟩

theorem trans (h : n.Extends k) (h' : k.Extends m) : n.Extends m := by
  obtain ⟨frames, closures, count, rfl⟩ := h
  obtain ⟨frames', closures', count', rfl⟩ := h'
  exact ⟨frames' ++ frames, closures' ++ closures, count' + count, by
    simp [Array.append_assoc, Nat.add_assoc]⟩

theorem skip (m : Machine) (count : Nat) : (m.skip count).Extends m :=
  ⟨#[], #[], count, by simp [Machine.skip]⟩

theorem frame_eq (h : n.Extends m) {id : Nat} (hid : id < m.frames.size) :
    n.frame id = m.frame id := by
  obtain ⟨frames, closures, count, rfl⟩ := h
  rw [Machine.frame, Machine.frame, Array.getD_eq_getD_getElem?, Array.getD_eq_getD_getElem?]
  change ((m.frames ++ frames)[id]?).getD [] = _
  rw [Array.getElem?_append_left hid]

theorem closure_eq (h : n.Extends m) {id : Nat} (hid : id < m.closures.size) :
    n.closures[id]? = m.closures[id]? := by
  obtain ⟨frames, closures, count, rfl⟩ := h
  exact Array.getElem?_append_left hid

/-- What a head denotes stays when a machine makes more. -/
theorem keyword?_iff (h : n.Extends m) {s : Scope} (hs : ∀ id ∈ s.frames, id < m.frames.size)
    {head : Value} {kw : Option Keyword} :
    Run.keyword? head s n = .ok kw n ↔ Run.keyword? head s m = .ok kw m := by
  have hframes : ∀ id ∈ s.frames, n.frame id = m.frame id := fun id hid => h.frame_eq (hs id hid)
  have hsame : n.modules = m.modules ∧ n.keywordsAreValues = m.keywordsAreValues := by
    obtain ⟨frames, closures, count, rfl⟩ := h
    exact ⟨rfl, rfl⟩
  exact ⟨Run.keyword?_congr hsame.1.symm hsame.2.symm fun id hid => (hframes id hid).symm,
    Run.keyword?_congr hsame.1 hsame.2 hframes⟩

theorem settles_iff (h : n.Extends m) {s : Scope} (hs : ∀ id ∈ s.frames, id < m.frames.size)
    {head : Value} : n.Settles s head ↔ m.Settles s head :=
  exists_congr fun _ => and_congr_left fun _ => h.keyword?_iff hs

end Machine.Extends

namespace Expansion

variable {g : Engine} {s : Scope} {m n k : Machine} {form : Value}

/-- However much more the machine has made, an expander leaves nothing behind but what it makes. -/
def PureExpanders (g : Engine) (s : Scope) (m : Machine) : Prop :=
  ∀ (k : Machine), k.Extends m → ∀ (head : Value) (tag : Identity) (name : String) (id : Nat),
    Run.keyword? head s k = .ok (some (.expander tag name id)) k →
      ∀ (args : List Value) (v : Value) (n : Machine),
        g.apply (.closure id) args k = .ok v n → n.Extends k

/-- The parts of a form through which expansion goes. -/
def openParts : Value → List Value
  | .list _ items | .vector _ items => if isOpen items then items else []
  | .improper _ items _ => items
  | _ => []

/-- The forms that expansion visits: the form itself, the parts of what it visits, and what an
expander makes of it. -/
inductive Visits (g : Engine) (s : Scope) (m : Machine) (form : Value) : Value → Prop
  | start : Visits g s m form form
  | part {v w : Value} : Visits g s m form v → w ∈ openParts v → Visits g s m form w
  | expansion {v w : Value} {k n : Machine} : Visits g s m form v → k.Extends m →
    g.expandHead? v s k = .ok (some w) n → Visits g s m form w

/-- Expansion visits a form whose head is no symbol, and this is what the head becomes. -/
def Uncovers (g : Engine) (s : Scope) (m : Machine) (form head : Value) : Prop :=
  ∃ v first rest fuel k n, Visits g s m form v ∧ v.elements? = some (first :: rest) ∧
    (∀ name, first ≠ .sym name) ∧ k.Extends m ∧ g.expandAll fuel first s k = .ok head n

theorem AllHeads.mono {P Q : Value → Prop} (h : ∀ head, P head → Q head) :
    ∀ {v : Value}, AllHeads P v → AllHeads Q v
  | .list _ items, hv | .vector _ items, hv =>
    ⟨fun head hhead => h head (hv.1 head hhead), fun hopen =>
      allHeadsIn_iff.mpr fun v hmem => AllHeads.mono h (allHeadsIn_iff.mp (hv.2 hopen) v hmem)⟩
  | .improper _ items _, hv =>
    allHeadsIn_iff.mpr fun v hmem => AllHeads.mono h (allHeadsIn_iff.mp hv v hmem)
  | .bool _, hv | .int _, hv | .real _ _, hv | .str _ _, hv | .char _, hv | .sym _, hv
  | .object _ _, hv => hv

theorem AllHeads.of_mem_openParts {P : Value → Prop} {v w : Value} (h : AllHeads P v)
    (hw : w ∈ openParts v) : AllHeads P w := by
  cases v with
  | list tag items | vector tag items =>
    rw [openParts] at hw
    split at hw
    · next hopen => exact allHeadsIn_iff.mp (h.2 hopen) w hw
    · cases hw
  | improper tag items tail => exact allHeadsIn_iff.mp h w hw
  | _ => cases hw

/-- A program that is run on one element after another, each time on a machine that has only made
more. -/
theorem mapInOrder_ok {f : Value → Run Value} {P : Value → Prop} {xs ys : List Value}
    (hf : ∀ x ∈ xs, ∀ {k y n}, k.Extends m → f x k = .ok y n → n.Extends k ∧ P y)
    (hk : k.Extends m) (h : Engine.mapInOrder f xs k = .ok ys n) :
    n.Extends k ∧ (∀ y ∈ ys, P y) ∧
      ∀ y ∈ ys.head?, ∃ x ∈ xs.head?, ∃ k n, k.Extends m ∧ f x k = .ok y n := by
  induction xs generalizing ys k with
  | nil =>
    cases h
    exact ⟨.refl _, nofun, nofun⟩
  | cons x rest ih =>
    obtain ⟨y, k', hx, h⟩ := exists_of_bind_ok h
    obtain ⟨more, n', hrest, h⟩ := exists_of_bind_ok h
    cases h
    obtain ⟨hx', hrest'⟩ := List.forall_mem_cons.mp hf
    obtain ⟨hk', hy⟩ := hx' hk hx
    obtain ⟨hn, hmore, -⟩ := ih hrest' (hk'.trans hk) hrest
    refine ⟨hn.trans hk', List.forall_mem_cons.mpr ⟨hy, hmore⟩, fun z hz => ?_⟩
    cases hz
    exact ⟨x, rfl, k, k', hk, hx⟩

/-- What full expansion makes: it is not as deep as the allowance, expansion goes through no vector
of it, and its heads settle or have been uncovered. -/
structure Expanded (g : Engine) (s : Scope) (m : Machine) (form : Value) (allowance : Nat)
    (r : Value) : Prop where
  depth : depth r < allowance
  keepsKinds : keepsKinds r = true
  heads : AllHeads (fun head => m.Settles s head ∨ Uncovers g s m form head) r

variable {fuel : Nat} {v r : Value} {items ys : List Value}

/-- What stays as it is. -/
theorem expanded_self (hopen : openParts v = []) (hkind : Expansion.keepsKinds v = true)
    (hheads : ∀ items, v.elements? = some items → ∀ head ∈ items.head?, m.Settles s head) :
    Expanded g s m form (fuel + 1) v := by
  cases v with
  | list tag items | vector tag items =>
    cases items with
    | nil => exact ⟨Nat.succ_pos _, rfl, nofun, fun h => absurd h Bool.false_ne_true⟩
    | cons head rest =>
      have hclosed : isOpen (head :: rest) = false := by
        cases hcase : isOpen (head :: rest) with
        | false => rfl
        | true =>
          rw [openParts, hcase] at hopen
          cases hopen
      refine ⟨?_, hkind, fun w hw => .inl (hheads _ rfl w hw), fun h => ?_⟩
      · rw [Expansion.depth, hclosed]
        exact Nat.succ_pos _
      · rw [hclosed] at h
        cases h
  | improper tag items tail =>
    cases hopen
    exact ⟨Nat.succ_pos _, rfl, trivial⟩
  | _ => exact ⟨Nat.succ_pos _, rfl, trivial⟩

/-- A list is made of what its elements have become. -/
theorem expanded_list (tag : Identity) (hys : ∀ y ∈ ys, Expanded g s m form fuel y)
    (hhead : ∀ y ∈ ys.head?, m.Settles s y ∨ Uncovers g s m form y) :
    Expanded g s m form (fuel + 1) (.list tag ys) where
  depth := by
    have hdepth := depthIn_le_iff.mpr fun y hy => (hys y hy).depth
    rw [Expansion.depth]
    split <;> omega
  keepsKinds := by
    rw [Expansion.keepsKinds, allKeepKinds_iff.mpr fun y hy => (hys y hy).keepsKinds,
      Bool.or_true]
  heads := ⟨hhead, fun _ => allHeadsIn_iff.mpr fun y hy => (hys y hy).heads⟩

theorem expanded_improper (tag : Identity) (hys : ∀ y ∈ ys, Expanded g s m form fuel y)
    (tail : Value) : Expanded g s m form (fuel + 1) (.improper tag ys tail) where
  depth := Nat.lt_succ_of_le (depthIn_le_iff.mpr fun y hy => (hys y hy).depth)
  keepsKinds := allKeepKinds_iff.mpr fun y hy => (hys y hy).keepsKinds
  heads := allHeadsIn_iff.mpr fun y hy => (hys y hy).heads

/-- A head that has been expanded itself settles as it did when it was a symbol, or has been
uncovered. -/
theorem settles_or_uncovers {first head : Value} (hvisit : Visits g s m form v)
    (hitems : v.elements? = some items) (hfirst : first ∈ items.head?)
    (hsettles : m.Settles s first) (hk : k.Extends m)
    (h : g.expandAll fuel first s k = .ok head n) :
    m.Settles s head ∨ Uncovers g s m form head := by
  cases items with
  | nil => cases hfirst
  | cons x rest =>
    obtain rfl : x = first := Option.some.inj hfirst
    by_cases hsym : ∃ name, x = .sym name
    · obtain ⟨name, rfl⟩ := hsym
      cases fuel <;> cases h
      exact .inl hsettles
    · exact .inr ⟨v, x, rest, fuel, k, n, hvisit, hitems, fun name hname => hsym ⟨name, hname⟩, hk, h⟩

/-- What full expansion makes of a form that it visits. -/
theorem expandAll_complete (hs : ∀ id ∈ s.frames, id < m.frames.size)
    (hpure : PureExpanders g s m) (hvisit : Visits g s m form v) (hk : k.Extends m)
    (h : g.expandAll fuel v s k = .ok r n) : n.Extends k ∧ Expanded g s m form fuel r := by
  induction fuel generalizing v r k n with
  | zero => cases h
  | succ fuel ih =>
    obtain ⟨head, args, tag, name, id, next, k', hhead, hkeyword, happly, h⟩ | ⟨hsettles, h⟩ :=
      Engine.expandAll_cases h
    · have hk' : k'.Extends k := hpure k hk head tag name id hkeyword args _ _ happly
      obtain ⟨hn, hr⟩ := ih (.expansion hvisit hk hhead) (hk'.trans hk) h
      exact ⟨hn.trans hk', { hr with depth := Nat.lt_succ_of_lt hr.depth }⟩
    · -- the heads were looked up after some expansions, which change nothing for them
      have hheads : ∀ items, v.elements? = some items → ∀ head ∈ items.head?, m.Settles s head :=
        fun items hitems head hhead => (hk.settles_iff hs).mp (hsettles items hitems head hhead)
      have hparts : ∀ x ∈ openParts v, ∀ {k y n}, k.Extends m → g.expandAll fuel x s k = .ok y n →
          n.Extends k ∧ Expanded g s m form fuel y := fun x hx => fun hk h => ih (.part hvisit hx) hk h
      cases v with
      | list tag items | vector tag items =>
        cases hopen : isOpen items with
        | false =>
          rw [Engine.descend, hopen] at h
          cases h
          exact ⟨.refl _, expanded_self (by rw [openParts, hopen]; rfl)
            (by rw [Expansion.keepsKinds, hopen]; rfl) hheads⟩
        | true =>
          rw [openParts, hopen, if_pos rfl] at hparts
          rw [Engine.descend, hopen, if_pos rfl] at h
          obtain ⟨ys, k', hrun, h⟩ := exists_of_bind_ok h
          obtain ⟨hk', hys, hfirst⟩ := mapInOrder_ok hparts hk hrun
          cases h
          refine ⟨(Machine.Extends.skip k' 1).trans hk', expanded_list _ hys fun y hy => ?_⟩
          obtain ⟨x, hx, l, l', hl, hxrun⟩ := hfirst y hy
          exact settles_or_uncovers hvisit rfl hx (hheads _ rfl x hx) hl hxrun
      | improper tag items tail =>
        rw [Engine.descend] at h
        obtain ⟨ys, k', hrun, h⟩ := exists_of_bind_ok h
        obtain ⟨hk', hys, -⟩ := mapInOrder_ok hparts hk hrun
        cases h
        exact ⟨(Machine.Extends.skip k' 1).trans hk', expanded_improper _ hys tail⟩
      | _ =>
        cases h
        exact ⟨.refl _, expanded_self rfl rfl hheads⟩

/-- Where all heads are symbols, in the form and in what expanders make, nothing is uncovered. -/
theorem not_uncovers {head : Value} (hform : AllHeads (∃ name, · = .sym name) form)
    (hmade : ∀ {v w : Value} {k n : Machine}, k.Extends m →
      g.expandHead? v s k = .ok (some w) n → AllHeads (∃ name, · = .sym name) w) :
    ¬ Uncovers g s m form head := by
  have hall : ∀ {v}, Visits g s m form v → AllHeads (∃ name, · = .sym name) v := fun hv => by
    induction hv with
    | start => exact hform
    | part _ hw ih => exact ih.of_mem_openParts hw
    | expansion _ hk hexpand _ => exact hmade hk hexpand
  rintro ⟨v, first, rest, -, -, -, hvisit, hitems, hfirst, -⟩
  have hsym : ∃ name, first = .sym name := by
    cases v with
    | list tag items | vector tag items =>
      cases hitems
      exact (hall hvisit).1 first rfl
    | _ => cases hitems
  obtain ⟨name, hname⟩ := hsym
  exact hfirst name hname

end Expansion

namespace Engine

open Expansion

/-- The machine with the expanders of `(define-macro (six) 6)` and `(define-macro (alias) 'six)`. -/
def transformers : Machine :=
  { Machine.initial "2.10" true .empty with
    modules := #[Machine.baseModule true, { Module.fresh "stklos" [Machine.schemeId] with
      vars := [("six", .keyword (.expander (.fresh 3) "six" 0)),
        ("alias", .keyword (.expander (.fresh 8) "alias" 1))] }]
    closures := #[⟨some "six", ⟨[], none⟩, .int 6, .ofModule Machine.defaultId, ""⟩,
      ⟨some "alias", ⟨[], none⟩, .list (.fresh 5) [.sym "quote", .sym "six"],
        .ofModule Machine.defaultId, ""⟩]
    nextTag := 9 }

/-- A closure without parameters is applied in a new frame. -/
theorem apply_of_noParameters {g : Engine} {id : Nat} {c : Closure} {args : List Value} {v w : Value}
    {k n : Machine} (hc : k.closures[id]? = some c) (hformals : c.formals = ⟨[], none⟩)
    (hbody : g.eval c.body (c.scope.inner k.frames.size) { k with frames := k.frames.push [] } =
      .ok w { k with frames := k.frames.push [] })
    (h : g.apply (.closure id) args k = .ok v n) : v = w ∧ n.Extends k := by
  have hclosure : Run.closure? (.closure id) k = .ok (some c) k := congrArg (EStateM.Result.ok · k) hc
  unfold apply at h
  rw [bind_of_ok hclosure] at h
  obtain ⟨s, k', hbind, h⟩ := exists_of_bind_ok h
  unfold Closure.bind at hbind
  rw [hformals] at hbind
  cases args with
  | nil =>
    cases hbind
    rw [hbody] at h
    cases h
    exact ⟨rfl, #[[]], #[], 0, by simp⟩
  | cons arg rest => cases hbind

/-- An empty frame hides no keyword of the module. -/
theorem keyword?_inner {name : String} {home : Nat} {k : Machine} {kw : Option Keyword}
    (h : Run.keyword? (.sym name) (.ofModule home) k = .ok kw k) :
    Run.keyword? (.sym name) ((Scope.ofModule home).inner k.frames.size)
      { k with frames := k.frames.push [] } = .ok kw { k with frames := k.frames.push [] } := by
  have hlocal : Machine.isLocal { k with frames := k.frames.push [] } name
      ((Scope.ofModule home).inner k.frames.size) = false := by
    simp [Machine.isLocal, Machine.frameOf?, Machine.frame, Scope.inner, Scope.ofModule, Table.has]
  have hmodule : Run.keywordIn? name home k = .ok kw k := h
  change (if Machine.isLocal _ name _ then _ else _ : Run (Option Keyword)) _ = _
  rw [hlocal, if_neg Bool.false_ne_true]
  refine Run.keywordIn?_congr (m := k) ?_ ?_ hmodule
  · rfl
  · rfl

/-- Every expander of the machine has one of its two closures. -/
theorem transformer_place {head : Value} {s : Scope} {tag : Identity} {name : String} {id : Nat}
    (h : Run.keyword? head s transformers = .ok (some (.expander tag name id)) transformers) :
    id = 0 ∨ id = 1 := by
  obtain ⟨home, entry, hvars | hexpanders⟩ := Run.mem_of_keyword? h
  · match home with
    | 0 =>
      rcases List.mem_append.mp hvars with hform | hprocedure
      · obtain ⟨entry', hentry, heq⟩ := List.mem_map.mp hform
        obtain ⟨f, -, rfl⟩ := List.mem_map.mp hentry
        cases heq
      · obtain ⟨b, -, heq⟩ := List.mem_map.mp hprocedure
        cases heq
    | 1 =>
      rcases List.mem_cons.mp hvars with hsix | halias
      · cases hsix
        exact .inl rfl
      · cases List.mem_singleton.mp halias
        exact .inr rfl
    | home + 2 => cases hvars
  · match home with
    | 0 | 1 | home + 2 => cases hexpanders

/-- An expander of the machine leaves a frame behind and makes a number or a symbol. -/
theorem apply_transformer {head : Value} {tag : Identity} {name : String} {id : Nat}
    {args : List Value} {v : Value} {k n : Machine} (hk : k.Extends transformers)
    (hkeyword : Run.keyword? head (.ofModule Machine.defaultId) k =
      .ok (some (.expander tag name id)) k)
    (h : (ofAllowance 10).apply (.closure id) args k = .ok v n) :
    n.Extends k ∧ (v = .int 6 ∨ v = .sym "six") := by
  have hs : ∀ id ∈ (Scope.ofModule Machine.defaultId).frames, id < transformers.frames.size :=
    List.forall_mem_nil _
  rcases transformer_place ((hk.keyword?_iff hs).mp hkeyword) with rfl | rfl
  · have hsix := hk.closure_eq (show 0 < transformers.closures.size from Nat.succ_pos _)
    obtain ⟨hv, hn⟩ := apply_of_noParameters (w := .int 6) hsix rfl rfl h
    exact ⟨hn, .inl hv⟩
  · have halias := hk.closure_eq (show 1 < transformers.closures.size from Nat.lt_succ_self _)
    have hquote : Run.keyword? (.sym "quote") (.ofModule Machine.defaultId) k =
        .ok (some (.form .quote)) k := (hk.keyword?_iff hs).mpr rfl
    have hbody := eval_keyword (keyword?_inner hquote) 9 (.fresh 5) [.sym "six"]
    obtain ⟨hv, hn⟩ := apply_of_noParameters (w := .sym "six") halias rfl hbody h
    exact ⟨hn, .inr hv⟩

theorem pureExpanders_transformers :
    PureExpanders (ofAllowance 10) (.ofModule Machine.defaultId) transformers :=
  fun _ hk _ _ _ _ hkeyword _ _ _ h => (apply_transformer hk hkeyword h).1

/-- The form `(list (six) '(alias))`. -/
def calls : Value :=
  .list .symbolName [.sym "list", .list .symbolName [.sym "six"],
    .list .symbolName [.sym "quote", .list .symbolName [.sym "alias"]]]

end Engine

end LiveScheme
