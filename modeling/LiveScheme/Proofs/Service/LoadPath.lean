import LiveScheme.Proofs.Editor.Evaluation
import LiveScheme.Proofs.Machine.Invariants
import LiveScheme.Service.Call

/-!
# The load path

Directories that an editor adds come in front of the load path, the one added last first; anything
else is refused and changes nothing. A directory that is on the path already is moved, but only its
first occurrence is, so copies of it may stay behind. As a search never gets as far as a copy, a
file is found as if all the directories added stood in front of the path that the connection began
with.
-/

namespace LiveScheme

/-- Lists of which the same entry is found first, whatever is asked of an entry. -/
def SearchedAlike (xs ys : List String) : Prop := ∀ p : String → Bool, xs.find? p = ys.find? p

namespace SearchedAlike

variable {xs ys : List String}

theorem cons (h : SearchedAlike xs ys) (x : String) : SearchedAlike (x :: xs) (x :: ys) := by
  intro p
  rw [List.find?_cons, List.find?_cons, h p]

/-- An entry that fails the test may be taken out. -/
theorem find?_erase {p : String → Bool} {x : String} (hx : p x = false) (xs : List String) :
    (xs.erase x).find? p = xs.find? p := by
  induction xs with
  | nil => rfl
  | cons y rest ih =>
    by_cases hy : y = x
    · subst hy
      rw [List.erase_cons_head, List.find?_cons_of_neg (by simp [hx])]
    · rw [List.erase_cons_tail (by simpa using hy), List.find?_cons, List.find?_cons, ih]

/-- The copy behind an entry is never found. -/
theorem cons_erase (x : String) (xs : List String) : SearchedAlike (x :: xs.erase x) (x :: xs) := by
  intro p
  cases hx : p x with
  | true => rw [List.find?_cons_of_pos hx, List.find?_cons_of_pos hx]
  | false =>
    rw [List.find?_cons_of_neg (by simp [hx]), List.find?_cons_of_neg (by simp [hx]),
      find?_erase hx]

end SearchedAlike

/-- A relative name is joined to the first directory that has such a file. -/
theorem Connection.resolve_relative (c : Connection) (d : Disk) {name : String}
    (hname : Disk.isAbsolute name = false) :
    c.resolve d name =
      (c.loadPath.find? fun dir => d.isFile (Disk.join dir name)).map (Disk.join · name) := by
  rw [resolve, if_neg (by simp [hname]), List.find?_map]
  rfl

/-- The directories among some paths, the one that comes last first. -/
def Disk.latestFirst (d : Disk) (paths : List String) : List String :=
  (paths.filter d.hasDirectory).reverse

theorem Disk.latestFirst_append (d : Disk) (paths more : List String) :
    d.latestFirst (paths ++ more) = d.latestFirst more ++ d.latestFirst paths := by
  rw [latestFirst, List.filter_append, List.reverse_append]
  rfl

namespace Machine

/-- The load path of a connection. -/
def loadPath (m : Machine) (id : Nat) : List String := (m.connections.getD id default).loadPath

/-- The machine with another load path of a connection. -/
def withLoadPath (m : Machine) (id : Nat) (loadPath : List String) : Machine :=
  { m with connections := m.connections.modify id fun c => { c with loadPath } }

variable {m : Machine} {id : Nat}

@[simp] theorem disk_withLoadPath (m : Machine) (id : Nat) (loadPath : List String) :
    (m.withLoadPath id loadPath).disk = m.disk := rfl

theorem loadPath_withLoadPath (hid : id < m.connections.size) (loadPath : List String) :
    (m.withLoadPath id loadPath).loadPath id = loadPath := by
  unfold Machine.loadPath withLoadPath
  rw [getD_modify, if_pos ⟨rfl, hid⟩]

/-- Only what a change makes of the connection itself counts. -/
theorem modify_congr {connections : Array Connection} {f g : Connection → Connection}
    (h : f (connections.getD id default) = g (connections.getD id default)) :
    connections.modify id f = connections.modify id g := by
  refine Array.ext_getElem? fun i => ?_
  rw [Array.getElem?_modify, Array.getElem?_modify]
  split
  · next heq =>
    subst heq
    rw [Array.getD_eq_getD_getElem?] at h
    cases hc : connections[id]? with
    | none => rfl
    | some c =>
      rw [hc] at h
      exact congrArg some h
  · rfl

/-- A change after another one is one change. -/
theorem modify_modify (connections : Array Connection) (id : Nat) (f g : Connection → Connection) :
    (connections.modify id f).modify id g = connections.modify id (g ∘ f) := by
  refine Array.ext_getElem? fun i => ?_
  rw [Array.getElem?_modify, Array.getElem?_modify, Array.getElem?_modify]
  split
  · rw [Option.map_map]
  · rfl

theorem withLoadPath_loadPath (m : Machine) (id : Nat) :
    m.withLoadPath id (m.loadPath id) = m := by
  have hsame : (m.connections.modify id fun c => { c with loadPath := m.loadPath id }) =
      m.connections.modify id fun c => c := modify_congr rfl
  have hnothing : (m.connections.modify id fun c => c) = m.connections := by
    refine Array.ext_getElem? fun i => ?_
    simp [Array.getElem?_modify]
  rw [withLoadPath, hsame, hnothing]

theorem withLoadPath_withLoadPath (m : Machine) (id : Nat) (first second : List String) :
    (m.withLoadPath id first).withLoadPath id second = m.withLoadPath id second := by
  have hlast : ((m.connections.modify id fun c => { c with loadPath := first }).modify id
      fun c => { c with loadPath := second }) =
        m.connections.modify id fun c => { c with loadPath := second } :=
    modify_modify m.connections id _ _
  exact congrArg (fun connections => { m with connections }) hlast

end Machine

namespace Service

variable {m : Machine} {id : Nat}

/-- The reply to a path that is to be added. -/
def additionReply (d : Disk) (path : String) : Reply :=
  .result [if d.hasDirectory path then "#t" else "#f"] ""

theorem addPathReply_of_directory {path : String} (h : m.disk.hasDirectory path = true) :
    addPathReply id path m = .ok (additionReply m.disk path)
      { m with connections := m.connections.modify id (·.addPath path) } := by
  let added : Machine := { m with connections := m.connections.modify id (·.addPath path) }
  have hadds : (do
      if (← get).disk.hasDirectory path then
        Run.modifyConnection id (·.addPath path)
        return .bool true
      else return .bool false : Run Value) m.beginCapture =
        .ok (.bool true) added.beginCapture := by
    have hget : (get : Run Machine) m.beginCapture = .ok m.beginCapture m.beginCapture := rfl
    have hdir : m.beginCapture.disk.hasDirectory path = true := h
    rw [bind_of_ok hget, if_pos hdir]
    rfl
  rw [addPathReply, Reply.capture_of_ok hadds, additionReply, if_pos h]
  rfl

/-- What is no directory is refused, and nothing changes. -/
theorem addPathReply_of_not {path : String} (h : m.disk.hasDirectory path = false) :
    addPathReply id path m = .ok (additionReply m.disk path) m := by
  have hrefuses : (do
      if (← get).disk.hasDirectory path then
        Run.modifyConnection id (·.addPath path)
        return .bool true
      else return .bool false : Run Value) m.beginCapture =
        .ok (.bool false) m.beginCapture := by
    have hget : (get : Run Machine) m.beginCapture = .ok m.beginCapture m.beginCapture := rfl
    have hdir : ¬ m.beginCapture.disk.hasDirectory path = true := by simp [Machine.beginCapture, h]
    rw [bind_of_ok hget, if_neg hdir]
    rfl
  rw [addPathReply, Reply.capture_of_ok hrefuses, additionReply, if_neg (by simp [h])]
  rfl

/-- An addition changes nothing but the load path of its connection, and that path is searched as if
the directory, if it is one, had been put in front of it. -/
theorem addPathReply_extends (path : String) {dirs : List String}
    (hdirs : SearchedAlike (m.loadPath id) dirs) :
    ∃ loadPath, addPathReply id path m =
        .ok (additionReply m.disk path) (m.withLoadPath id loadPath) ∧
      SearchedAlike loadPath (m.disk.latestFirst [path] ++ dirs) := by
  cases h : m.disk.hasDirectory path with
  | true =>
    have hsame : m.connections.modify id (·.addPath path) = m.connections.modify id fun c =>
        { c with loadPath := path :: (m.loadPath id).erase path } := Machine.modify_congr rfl
    have hadded : ({ m with connections := m.connections.modify id (·.addPath path) } : Machine) =
        m.withLoadPath id (path :: (m.loadPath id).erase path) := by
      rw [hsame, Machine.withLoadPath]
    refine ⟨path :: (m.loadPath id).erase path, hadded ▸ addPathReply_of_directory h, fun p => ?_⟩
    rw [Disk.latestFirst, List.filter_cons_of_pos h]
    exact (SearchedAlike.cons_erase path _ p).trans (hdirs.cons path p)
  | false =>
    refine ⟨m.loadPath id, ?_, ?_⟩
    · rw [Machine.withLoadPath_loadPath]
      exact addPathReply_of_not h
    · rw [Disk.latestFirst, List.filter_cons_of_neg (by simp [h])]
      exact hdirs

/-- Additions leave everything else as it is, and the path is searched as if the directories among
what was added stood in front of it, the one added last first. -/
theorem addPathReplies_extend (hid : id < m.connections.size) (paths : List String)
    {dirs : List String} (hdirs : SearchedAlike (m.loadPath id) dirs) :
    ∃ loadPath, paths.mapM (addPathReply id) m =
        .ok (paths.map (additionReply m.disk)) (m.withLoadPath id loadPath) ∧
      SearchedAlike loadPath (m.disk.latestFirst paths ++ dirs) := by
  induction paths generalizing m dirs with
  | nil => exact ⟨m.loadPath id, by rw [Machine.withLoadPath_loadPath]; rfl, hdirs⟩
  | cons path rest ih =>
    obtain ⟨first, hfirst, halike⟩ := addPathReply_extends path hdirs
    have hid' : id < (m.withLoadPath id first).connections.size := by
      simpa [Machine.withLoadPath] using hid
    rw [← Machine.loadPath_withLoadPath hid first] at halike
    obtain ⟨last, hlast, hrest⟩ := ih hid' halike
    rw [Machine.withLoadPath_withLoadPath] at hlast
    refine ⟨last, ?_, ?_⟩
    · rw [List.mapM_cons, bind_of_ok hfirst, bind_of_ok hlast]
      rfl
    · rw [Machine.disk_withLoadPath, ← List.append_assoc] at hrest
      rwa [← Disk.latestFirst_append] at hrest

/-- After any additions to the load path of a connection a relative name is found in the first
directory that has such a file: first come the directories that were added, the one added last
first, and then the path as it was. What is no directory changes nothing. -/
theorem resolve_added (hid : id < m.connections.size) (paths : List String) :
    (∃ loadPath, paths.mapM (addPathReply id) m =
        .ok (paths.map (additionReply m.disk)) (m.withLoadPath id loadPath) ∧
      ∀ name, Disk.isAbsolute name = false →
        ((m.withLoadPath id loadPath).connections.getD id default).resolve m.disk name =
          ((m.disk.latestFirst paths ++ m.loadPath id).find? fun dir =>
            m.disk.isFile (Disk.join dir name)).map (Disk.join · name)) ∧
    ∀ path, m.disk.hasDirectory path = false →
      addPathReply id path m = .ok (additionReply m.disk path) m := by
  refine ⟨?_, fun path => addPathReply_of_not⟩
  obtain ⟨loadPath, hadded, halike⟩ := addPathReplies_extend hid paths fun _ => rfl
  refine ⟨loadPath, hadded, fun name hname => ?_⟩
  have hpath : ((m.withLoadPath id loadPath).connections.getD id default).loadPath = loadPath :=
    Machine.loadPath_withLoadPath hid loadPath
  rw [Connection.resolve_relative _ _ hname, hpath, halike]

/-- Three directories, two of which have a file of the same name. -/
def shelves : Disk := .ofFiles [("lib/a.stk", ""), ("src/a.stk", ""), ("old/b.stk", "")]

/-- A connection that has a directory twice on its path. -/
def shelved : Machine :=
  { Machine.initial "2.10" true shelves with connections := #[⟨["lib", "old", "lib"], none⟩] }

/-- Two directories are added, one of them twice, and a name that is none. -/
theorem resolve_added_shelved :
    0 < shelved.connections.size ∧ Disk.isAbsolute "a.stk" = false ∧
    (∃ loadPath, ["src", "lib", "nowhere", "src"].mapM (addPathReply 0) shelved =
        .ok [.result ["#t"] "", .result ["#t"] "", .result ["#f"] "", .result ["#t"] ""]
          (shelved.withLoadPath 0 loadPath) ∧
      ((shelved.withLoadPath 0 loadPath).connections.getD 0 default).resolve shelves "a.stk" =
        some "src/a.stk") ∧
    addPathReply 0 "nowhere" shelved = .ok (.result ["#f"] "") shelved := by
  have hid : 0 < shelved.connections.size := by decide
  have hname : Disk.isAbsolute "a.stk" = false := by decide +kernel
  have hnowhere : shelves.hasDirectory "nowhere" = false := by decide +kernel
  have hreplies : ["src", "lib", "nowhere", "src"].map (additionReply shelves) =
      [.result ["#t"] "", .result ["#t"] "", .result ["#f"] "", .result ["#t"] ""] := by
    decide +kernel
  have hfound : ((shelves.latestFirst ["src", "lib", "nowhere", "src"] ++
      shelved.loadPath 0).find? fun dir => shelves.isFile (Disk.join dir "a.stk")).map
        (Disk.join · "a.stk") = some "src/a.stk" := by decide +kernel
  have hrefused : additionReply shelves "nowhere" = .result ["#f"] "" := by decide +kernel
  obtain ⟨⟨loadPath, hadded, hresolve⟩, hrefuses⟩ :=
    resolve_added hid ["src", "lib", "nowhere", "src"]
  exact ⟨hid, hname, ⟨loadPath, hreplies ▸ hadded, (hresolve "a.stk" hname).trans hfound⟩,
    hrefused ▸ hrefuses "nowhere" hnowhere⟩

end Service

end LiveScheme
