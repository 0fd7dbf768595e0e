import ProxBack.Update.Download

/-! The world of the updaters: the files, what was fetched, and the calls that failed. -/
namespace ProxBack.Update
open Lib Prog Function
open Engine (Bytes Fault)

structure Fetch where
  release : Option Release
  url : String
  resp : Response

structure Fetch.Whole (f : Fetch) (url : String) : Prop where
  url_eq : f.url = url
  status : f.resp.status = 200
  uncut : f.resp.cut = none

structure World where
  disk : Files.Disk
  release : Option Release
  fetched : List Fetch
  failed : List Files.Call

def World.start (disk : Files.Disk) : World := ⟨disk, none, [], []⟩

structure Choice where
  file : Files.Choice
  answer : Except Fault Response
  rel : Except Fault Release

def World.after (w : World) (c : Files.Call) (r : Files.Reply c) (disk : Files.Disk) : World :=
  { w with disk, failed := if Files.fails c r then w.failed ++ [c] else w.failed }

def World.exec : (c : Call) → Choice → World → Reply c × World
  | .file c, x, w =>
    let (r, disk) := Files.exec c x.file w.disk
    (r, w.after c r disk)
  | .get url, x, w =>
    match x.answer with
    | .error f => (.error f, w)
    | .ok resp => (.ok resp, { w with fetched := w.fetched ++ [⟨w.release, url, resp⟩] })
  | .byTag _, x, w =>
    match x.rel with
    | .error f => (.error f, w)
    | .ok rel => (.ok rel, { w with release := some rel })

def machine : Machine Call Reply World := ⟨Choice, World.exec⟩

section
variable {w : World} {c : Files.Call} {r : Files.Reply c} {disk : Files.Disk}

@[simp] theorem World.after_disk : (w.after c r disk).disk = disk := rfl

@[simp] theorem World.after_release : (w.after c r disk).release = w.release := rfl

@[simp] theorem World.after_fetched : (w.after c r disk).fetched = w.fetched := rfl

theorem World.mem_failed {c' : Files.Call} (h : c' ∈ w.failed) : c' ∈ (w.after c r disk).failed := by
  unfold after
  dsimp only
  split
  · exact List.mem_append_left _ h
  · exact h

theorem World.mem_failed_self (h : Files.fails c r) : c ∈ (w.after c r disk).failed := by
  simp [after, h]

end

/-- However the world answers, the program ends as `post` says. -/
abbrev Sure {α : Type} (post : α → World → Prop) (p : UpdateM α) (w : World) : Prop :=
  Wp machine.T (fun _ _ => True) post p w

section
variable {α : Type} {post : α → World → Prop} {w : World}

theorem sure_file {c : Files.Call} {k : Files.Reply c → UpdateM α}
    (h : ∀ r disk, Files.machine.T c w.disk r disk → Sure post (k r) (w.after c r disk)) :
    Sure post (.call (.file c) k) w := by
  refine ⟨trivial, fun r w' ⟨x, hx⟩ => ?_⟩
  cases hx
  exact h _ _ ⟨x.file, rfl⟩

theorem sure_quiet {c : Files.Call} {k : Files.Reply c → UpdateM α} (hc : c.quiet)
    (h : ∀ r, Sure post (k r) (w.after c r w.disk)) : Sure post (.call (.file c) k) w := by
  refine sure_file fun r disk hT => ?_
  rw [Files.quiet_cases hc hT]
  exact h r

theorem sure_get {url : String} {k : Except Fault Response → UpdateM α}
    (hlost : ∀ f, Sure post (k (.error f)) w)
    (hcame : ∀ resp, Sure post (k (.ok resp)) { w with fetched := w.fetched ++ [⟨w.release, url, resp⟩] }) :
    Sure post (.call (.get url) k) w := by
  refine ⟨trivial, fun r w' ⟨x, hx⟩ => ?_⟩
  change World.exec (.get url) x w = (r, w') at hx
  dsimp only [World.exec] at hx
  split at hx
  · cases hx
    exact hlost _
  · cases hx
    exact hcame _

end

end ProxBack.Update
