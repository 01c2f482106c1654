import Netstore.Abstraction
import Netstore.Depot
import Netstore.Replies

/-!
# Requests handled at the same time

`Refinement` follows a server that handles one request after the other, as a store. Here any number
of requests are handled at the same time, of every kind and with any outcome, and what the server
keeps is a depot (`World.depot`) : the stored files, the uploads that have reserved space or claimed
their names with what the folder has of their files, and the file of the removal that is under way.
In orderly runs every call of the server that decides something, or changes what a reader would get,
is an event of the depot (the close of a file that is kept is two), with the answer that the depot
gives, and every other call leaves the depot as it is (`refines_depot`).
-/

namespace Netstore

open Transition

/-! ## What a server keeps -/

namespace Upload

variable (d : Folder Filename) (target : Option Filename) (u : Upload)

/-- What the folder has of the file of the upload : nothing while an older file of the name is being
removed. -/
def arrived : Option Bytes :=
  if target = some u.filename then none else d.content u.filename

/-- The upload while it has its name. -/
def entrant : Depot.Entrant Filename :=
  ⟨some u.filename, u.held, u.arrived d target⟩

/-- The upload while it has its name or space. -/
def entrants : Multiset (Depot.Entrant Filename) :=
  if u.pc.owns then {u.entrant d target}
  else if u.pc.holds then {⟨none, u.held, none⟩}
  else 0

/-- What a call of the upload is for the depot. -/
def events (s : Server) : UploadCall → List (Depot.Event Filename)
  -- a name that is not acceptable is refused before the depot is asked
  | .checkAndReserveSpace =>
    if acceptableName u.filename then
      [.reserve u.fileSize.toNat (s.checkAndReserveSpace u.fileSize).1]
    else []
  | .addFileToStorage => [.claim u.filename u.fileSize.toNat (s.addFileToStorage u.filename).1]
  | .freeSpace => [.giveBack (if u.pc.owns then some u.filename else none) u.fileSize.toNat]
  | .removeFileFromStorage => [.forget u.filename]
  | .openFile true => [.arrive (u.entrant s.folder target) []]
  | .flush n true =>
    match u.pc with
    | .receiving _ st _ _ => [.arrive (u.entrant s.folder target) (st.buffer.take n)]
    | _ => []
  -- what is in the buffer comes first, and then the file is stored or not
  | .closeFile true =>
    match u.pc with
    | .closing failed st toUpload received => .arrive (u.entrant s.folder target) st.buffer ::
        (afterTransfer failed toUpload received).keptBytes.toList.map (.commit u.filename)
    | _ => []
  | .removeFile true => [.drop (u.entrant s.folder target)]
  | _ => []

end Upload

namespace World

variable (w : World)

/-- The uploads that are under way. -/
def entrants : Multiset (Depot.Entrant Filename) :=
  (w.uploads.map (Upload.entrants w.server.folder w.loop.target)).sum

/-- The stored files, and what is under way. -/
def depot : Depot Filename :=
  { w.store with
    entrants := w.entrants
    leaving := w.loop.target.map fun f => ⟨f, (w.server.folder.content f).getD [], w.debt⟩ }

/-- What a step of the server is for the depot. -/
def events : Action → List (Depot.Event Filename)
  | .receive d =>
    match Netstore.receive d.payload with
    | .ok (some (.file _ f)) => [.ask f (w.server.isInStorage f)]
    | .ok (some (.remove f)) => [.del f ((w.server.removeFileFromStorage f).1 > 0)]
    | _ => []
  | .discover _ => [.hello w.server.getAvailableSpace.toNat]
  | .remove .freeSpace => [.pay]
  | .remove (.removeFile _) => [.gone]
  | .upload i c => w.uploads[i]?.elim [] fun u => u.events w.loop.target w.server c
  | .download i (.openFile ok) => w.downloads[i]?.elim [] fun u =>
      [.read u.filename (if ok then w.server.folder.content u.filename else none)]
  | .filesList _ _ => [.list w.server.filesInStorage.toFinset]
  | _ => []

variable {w} {w' : World} {a : Action} {f : Filename}

/-! ## The depot and the server -/

theorem mem_files_iff (h : Undisturbed w) : f ∈ w.files ↔ w.Stored f := by
  rw [← Finmap.lookup_isSome, lookup_files]
  split_ifs with hf
  · have hcontent := mt w.server.folder.content_eq_none_iff.mp (h.stored hf).1
    simp [hf, Option.isSome_iff_ne_none, hcontent]
  · simp [hf]

theorem mem_entrants {e : Depot.Entrant Filename} :
    e ∈ w.entrants ↔ ∃ u ∈ w.uploads, e ∈ u.entrants w.server.folder w.loop.target := by
  have hbind : w.entrants = (w.uploads : Multiset Upload).bind
      (Upload.entrants w.server.folder w.loop.target) := by
    rw [entrants, ← Multiset.sum_coe]
    rfl
  rw [hbind, Multiset.mem_bind]
  rfl

theorem mem_claimed_iff : f ∈ w.depot.claimed ↔ w.Owned f := by
  have hmem (u : Upload) : (∃ e ∈ u.entrants w.server.folder w.loop.target, e.name = some f) ↔
      u.pc.owns ∧ u.filename = f := by
    unfold Upload.entrants
    split_ifs with ho hh <;> simp [Upload.entrant, ho]
  simp only [Depot.claimed, depot, Multiset.mem_toFinset, Multiset.mem_filterMap, mem_entrants]
  constructor
  · rintro ⟨e, ⟨u, hu, he⟩, hname⟩
    exact ⟨u, hu, (hmem u).mp ⟨e, he, hname⟩⟩
  · rintro ⟨u, hu, ho⟩
    obtain ⟨e, he, hname⟩ := (hmem u).mpr ho
    exact ⟨e, ⟨u, hu, he⟩, hname⟩

/-- The names of the depot are the index. -/
theorem names_eq (h : Undisturbed w) : w.depot.names = w.server.filesInStorage.toFinset := by
  ext f
  rw [Depot.names, Finset.mem_union, mem_claimed_iff, Finmap.mem_keys, SortedSet.mem_toFinset]
  refine (or_congr_left (mem_files_iff h)).trans ⟨?_, fun hf => ?_⟩
  · rintro (hf | hf)
    · exact hf.1
    · obtain ⟨i, hi⟩ := owned_iff.mp hf
      exact h.indexed hi
  · by_cases ho : w.Owned f
    · exact Or.inr ho
    · exact Or.inl ⟨hf, ho⟩

/-- What the depot has promised is the counter. -/
theorem used_depot (h : Exact w) : w.depot.used = w.server.usedSpace.toNat := by
  have hheld (u : Upload) : ((u.entrants w.server.folder w.loop.target).map
      Depot.Entrant.space).sum = u.held := by
    unfold Upload.entrants
    split_ifs with ho hh
    · simp [Upload.entrant]
    · simp
    · simp [Upload.held, hh]
  have hsum : (w.entrants.map Depot.Entrant.space).sum = w.heldSize := by
    rw [entrants, heldSize]
    induction w.uploads with
    | nil => rfl
    | cons u us ih =>
      rw [List.map_cons, List.sum_cons, Multiset.map_add, Multiset.sum_add, ih, hheld]
      rfl
  have hdebt : w.depot.leaving.elim 0 Depot.Leaving.space = w.debt := by
    unfold depot debt
    cases w.loop <;> rfl
  rw [h, Depot.used, ← hsum, ← total_store, ← hdebt]
  rfl

/-! ## What the steps are for the depot -/

section Upload

variable {i : ℕ} {c : UploadCall} {u : Upload} {s : Server} {pc : UploadPc} {t : Bool}

/-- What a call of an upload does to the folder is not seen by the others. -/
theorem entrants_other (h : Undisturbed w) (hu : w.uploads[i]? = some u)
    (hn : u.next w.server c = some (s, pc)) (ha : Orderly w (.upload i c)) {j : ℕ} {v : Upload}
    (hj : j ≠ i) (hv : w.uploads[j]? = some v) :
    v.entrants s.folder w.loop.target = v.entrants w.server.folder w.loop.target := by
  unfold Upload.entrants
  split_ifs with ho
  · have ht : c.touches → w.loop.target ≠ some u.filename := fun ht => ha.2 ht _ (by simp [hu])
    rcases (Upload.onDisk_next hn (h.onDisk hu) h.absent ha.1.2 ht).2 with he | ⟨ho', -, hc⟩
    · rw [he]
    · have hname : v.filename ≠ u.filename := fun he =>
        hj (h.unique (f := u.filename) ⟨v, hv, ho, he⟩ ⟨u, hu, ho', rfl⟩)
      rw [Upload.entrant, Upload.entrant, Upload.arrived, Upload.arrived, hc.content hname]
  · rfl
  · rfl

/-- A call of an upload changes its part of the depot, and stores its file if it keeps it. -/
theorem depot_set (h : Undisturbed w) (hu : w.uploads[i]? = some u)
    (hn : u.next w.server c = some (s, pc)) (ha : Orderly w (.upload i c)) :
    ∃ rest, w.depot.entrants = u.entrants w.server.folder w.loop.target + rest ∧
      depot { w with
        server := s, uploads := w.uploads.set i { u with pc := pc }, terminated := t } =
          { pc.keptBytes.elim w.store (w.store.put u.filename) with
            entrants := Upload.entrants s.folder w.loop.target { u with pc := pc } + rest
            leaving := w.depot.leaving } := by
  obtain ⟨rest, hrest, hset⟩ := exists_sum_map_set
    (Upload.entrants w.server.folder w.loop.target) (Upload.entrants s.folder w.loop.target) hu
    fun j v hj hv => entrants_other h hu hn ha hj hv
  refine ⟨rest, hrest, ?_⟩
  have hleaving : (w.loop.target.map fun f =>
      (⟨f, (s.folder.content f).getD [], w.debt⟩ : Depot.Leaving Filename)) =
        w.depot.leaving := by
    refine Option.map_congr fun f hf => ?_
    rw [h.content_upload hu hn ha (Or.inr hf)]
  rw [depot, h.store_upload hu hn ha t, debt_set h hu hn ha]
  simp only [entrants, hset, hleaving]

/-- The folder has the part of a file that is not in the buffer, and a flush takes it on. -/
theorem content_of_live {d : Folder Filename} {target : Option Filename} {n : UInt64} {st : Stream}
    {toUpload : UInt64} {received : Bytes} (h : Upload.Live d target f n st toUpload received) :
    ∃ cs, d.content f = some cs ∧ cs.length + st.buffer.length ≤ n.toNat ∧
      ∀ k, (st.flush d k).1.content f = some (cs ++ st.buffer.take k) := by
  obtain ⟨cs, hcs, -, hrec⟩ := h.flushed
  refine ⟨cs, hcs, ?_, fun k => ?_⟩
  · have hleft := h.left
    rw [hrec, List.length_append] at hleft
    omega
  · obtain ⟨bs, hbs, -, hrec'⟩ := h.content_flush k
    have happend : bs ++ st.buffer.drop k = cs ++ st.buffer.take k ++ st.buffer.drop k := by
      rw [← hrec', hrec, List.append_assoc, List.take_append_drop]
    rw [hbs, List.append_cancel_right happend]

/-- There is nothing yet of a file that is not open, or that has been removed. -/
theorem arrived_eq_none (h : w.server.folder.inode u.filename = none ∨
    w.loop.target = some u.filename) : u.arrived w.server.folder w.loop.target = none := by
  unfold Upload.arrived
  split_ifs with ht
  · rfl
  · exact w.server.folder.content_eq_none_iff.mpr (h.resolve_right ht)

/-- The depot when an upload has made a call, next to the others. -/
def depotAfter (w : World) (u : Upload) (s : Server) (pc : UploadPc)
    (rest : Multiset (Depot.Entrant Filename)) : Depot Filename :=
  { pc.keptBytes.elim w.store (w.store.put u.filename) with
    entrants := Upload.entrants s.folder w.loop.target { u with pc := pc } + rest
    leaving := w.depot.leaving }

section Rest

variable {rest : Multiset (Depot.Entrant Filename)}
  (hrest : w.depot.entrants = u.entrants w.server.folder w.loop.target + rest)

include hrest

/-- A call that decides nothing. -/
theorem run_quiet (hevents : u.events w.loop.target w.server c = []) (hk : pc.keptBytes = none)
    (hsame : Upload.entrants s.folder w.loop.target { u with pc := pc } =
      u.entrants w.server.folder w.loop.target) :
    Transition.run Depot.step w.depot (u.events w.loop.target w.server c) =
      some (w.depotAfter u s pc rest) := by
  rw [hevents, depotAfter, hk, hsame, ← hrest]
  rfl

/-- More of the file of an upload comes. -/
theorem step_arrive {cs bs : Bytes} (ho : u.pc.owns) (hh : u.pc.holds)
    (hfile : (u.arrived w.server.folder w.loop.target).getD [] = cs)
    (hle : cs.length + bs.length ≤ u.fileSize.toNat) :
    w.depot.step (.arrive (u.entrant w.server.folder w.loop.target) bs) = some { w.depot with
      entrants := {⟨some u.filename, u.fileSize.toNat, some (cs ++ bs)⟩} + rest } := by
  have hheld : u.held = u.fileSize.toNat := if_pos hh
  have hmem : u.entrant w.server.folder w.loop.target ∈ w.depot.entrants := by
    simp [hrest, Upload.entrants, ho]
  rw [Depot.step, if_pos ⟨hmem, rfl, by simpa [Upload.entrant, hfile, hheld] using hle⟩, hrest,
    Upload.entrants, if_pos ho]
  simp [Upload.entrant, hfile, hheld]

end Rest

/-- A call that is one event. -/
theorem run_event {rest : Multiset (Depot.Entrant Filename)} {e : Depot.Event Filename}
    (hevents : u.events w.loop.target w.server c = [e]) (hk : pc.keptBytes = none)
    (hs : w.depot.step e = some { w.depot with
      entrants := Upload.entrants s.folder w.loop.target { u with pc := pc } + rest }) :
    Transition.run Depot.step w.depot (u.events w.loop.target w.server c) =
      some (w.depotAfter u s pc rest) := by
  rw [hevents, run_singleton, hs, depotAfter, hk]
  rfl

/-- An upload that has its name, and nothing in the folder, gives its space back. -/
theorem depot_giveBack {rest : Multiset (Depot.Entrant Filename)}
    (hrest : w.depot.entrants = u.entrants w.server.folder w.loop.target + rest)
    (ho : u.pc.owns) (hh : u.pc.holds)
    (hnone : u.arrived w.server.folder w.loop.target = none) (ho' : pc.owns)
    (hh' : pc.holds = false) (hk : pc.keptBytes = none) :
    Transition.run Depot.step w.depot (u.events w.loop.target w.server .freeSpace) =
      some (w.depotAfter u (w.server.freeSpace u.fileSize) pc rest) := by
  have hheld : u.held = u.fileSize.toNat := if_pos hh
  have hone : u.entrants w.server.folder w.loop.target =
      {⟨some u.filename, u.fileSize.toNat, none⟩} := by
    rw [Upload.entrants, if_pos ho, Upload.entrant, hnone, hheld]
  have hnew : Upload.entrants (w.server.freeSpace u.fileSize).folder w.loop.target
      { u with pc := pc } = {⟨some u.filename, 0, none⟩} := by
    have hheld' : Upload.held { u with pc := pc } = 0 := if_neg (by simp [hh'])
    rw [Upload.entrants, if_pos ho', Upload.entrant, hheld']
    exact congrArg (fun file => {(⟨some u.filename, 0, file⟩ : Depot.Entrant Filename)}) hnone
  refine run_event (e := .giveBack (some u.filename) u.fileSize.toNat)
    (by simp [Upload.events, ho]) hk ?_
  rw [Depot.step, if_pos (by simp [hrest, hone]), hrest, hone, hnew]
  simp

section Transfer

variable {rest : Multiset (Depot.Entrant Filename)} {failed : Bool} {st : Stream}
  {toUpload : UInt64} {received : Bytes}
  (hrest : w.depot.entrants = u.entrants w.server.folder w.loop.target + rest)
  (hdisk : u.OnDisk w.server.folder w.loop.target)

include hrest hdisk

/-- The file is empty when the upload opens it. -/
theorem depot_create {ino : ℕ} {folder : Folder Filename} (before : u.pc = .opening failed)
    (opened : w.server.folder.openTruncate u.filename = some (ino, folder))
    (htarget : w.loop.target ≠ some u.filename) :
    Transition.run Depot.step w.depot (u.events w.loop.target w.server (.openFile true)) =
      some (w.depotAfter u { w.server with folder := folder }
        (.receiving failed ⟨ino, 0, [], true⟩ u.fileSize []) rest) := by
  simp only [Upload.OnDisk, before] at hdisk
  obtain ⟨rfl, rfl⟩ :=
    w.server.folder.openTruncate_of_inode_none (hdisk.resolve_right htarget) opened
  have hfile : (u.arrived w.server.folder w.loop.target).getD [] = [] := by
    rw [arrived_eq_none hdisk]
    rfl
  refine run_event rfl rfl ((step_arrive hrest (by rw [before]; rfl) (by rw [before]; rfl) hfile
    (Nat.zero_le _)).trans ?_)
  simp [Upload.entrants, Upload.entrant, Upload.arrived, UploadPc.owns, UploadPc.holds,
    Upload.held, htarget]

theorem depot_flush (before : u.pc = .receiving failed st toUpload received) (n : ℕ) :
    Transition.run Depot.step w.depot (u.events w.loop.target w.server (.flush n true)) =
      some (w.depotAfter u { w.server with folder := (st.flush w.server.folder n).1 }
        (.receiving failed (st.flush w.server.folder n).2 toUpload received) rest) := by
  simp only [Upload.OnDisk, before] at hdisk
  obtain ⟨cs, hcs, hle, hflush⟩ := content_of_live hdisk
  have htarget := hdisk.target
  have hfile : (u.arrived w.server.folder w.loop.target).getD [] = cs := by
    rw [Upload.arrived, if_neg htarget, hcs]
    rfl
  have htake : cs.length + (st.buffer.take n).length ≤ u.fileSize.toNat := by
    have := List.length_take_le' n st.buffer
    omega
  refine run_event (by simp only [Upload.events, before]) rfl
    ((step_arrive hrest (by rw [before]; rfl) (by rw [before]; rfl) hfile htake).trans ?_)
  simp [Upload.entrants, Upload.entrant, Upload.arrived, UploadPc.owns, UploadPc.holds,
    Upload.held, htarget, hflush]

/-- The rest of the buffer comes, and then the file is stored if that is all of it. -/
theorem depot_close (before : u.pc = .closing failed st toUpload received)
    (hn : u.next w.server (.closeFile true) =
      some ({ w.server with folder := (st.flush w.server.folder st.buffer.length).1 },
        Upload.afterTransfer failed toUpload received))
    (hnew : u.filename ∉ w.depot.files) :
    Transition.run Depot.step w.depot (u.events w.loop.target w.server (.closeFile true)) =
      some (w.depotAfter u
        { w.server with folder := (st.flush w.server.folder st.buffer.length).1 }
        (Upload.afterTransfer failed toUpload received) rest) := by
  have hlive := hdisk
  simp only [Upload.OnDisk, before] at hlive
  obtain ⟨cs, hcs, hle, hflush⟩ := content_of_live hlive
  have htarget := hlive.target
  have hfile : (u.arrived w.server.folder w.loop.target).getD [] = cs := by
    rw [Upload.arrived, if_neg htarget, hcs]
    rfl
  have hstep := step_arrive hrest (by rw [before]; rfl) (by rw [before]; rfl) hfile hle
  have hevents : u.events w.loop.target w.server (.closeFile true) =
      .arrive (u.entrant w.server.folder w.loop.target) st.buffer ::
        (Upload.afterTransfer failed toUpload received).keptBytes.toList.map
          (.commit u.filename) := by
    simp only [Upload.events, before]
  have hcontent := hflush st.buffer.length
  rw [List.take_length] at hcontent
  obtain hafter | hafter : Upload.afterTransfer failed toUpload received = .checking ∨
      Upload.afterTransfer failed toUpload received = .kept received := by
    unfold Upload.afterTransfer
    split_ifs
    · exact Or.inl rfl
    · exact Or.inr rfl
  · refine run_event (by rw [hevents, hafter]; rfl) (by rw [hafter]; rfl) (hstep.trans ?_)
    rw [hafter]
    simp [Upload.entrants, Upload.entrant, Upload.arrived, UploadPc.owns, UploadPc.holds,
      Upload.held, htarget, hcontent]
  · rw [hafter] at hn
    obtain ⟨hkept, hlen, -⟩ := Upload.content_of_kept hn hdisk rfl
    obtain rfl : cs ++ st.buffer = received := Option.some.inj (hcontent.symm.trans hkept)
    have hcommit : Depot.step { w.depot with
        entrants := {⟨some u.filename, u.fileSize.toNat, some (cs ++ st.buffer)⟩} + rest }
          (.commit u.filename (cs ++ st.buffer)) =
        some { w.store.put u.filename (cs ++ st.buffer) with
          entrants := rest, leaving := w.depot.leaving } := by
      rw [Depot.step, if_pos ⟨by simp [hlen], hnew⟩, ← hlen]
      simp [Store.put, depot]
    have hnone : Upload.entrants (st.flush w.server.folder st.buffer.length).1 w.loop.target
        { u with pc := .kept (cs ++ st.buffer) } = 0 := rfl
    rw [hevents, hafter, depotAfter, hnone, zero_add]
    refine (run_cons ..).trans ?_
    rw [hstep, Option.bind_some]
    exact (run_singleton ..).trans hcommit

omit hdisk in
theorem depot_drop {folder : Folder Filename} (before : u.pc = .removing)
    (removed : w.server.folder.remove u.filename = some folder)
    (htarget : w.loop.target ≠ some u.filename) :
    Transition.run Depot.step w.depot (u.events w.loop.target w.server (.removeFile true)) =
      some (w.depotAfter u { w.server with folder := folder } .releasing rest) := by
  have hcontent : folder.content u.filename = none := by
    rw [Folder.content_eq_none_iff, w.server.folder.inode_remove removed, if_pos rfl]
  refine run_event (e := .drop (u.entrant w.server.folder w.loop.target)) rfl rfl ?_
  rw [Depot.step, if_pos (by simp [hrest, Upload.entrants, before, UploadPc.owns]), hrest]
  simp [Upload.entrants, Upload.entrant, Upload.arrived, before, UploadPc.owns, UploadPc.holds,
    Upload.held, htarget, hcontent]

end Transfer

/-- Each call of an upload is what happens to the depot. -/
theorem depot_upload (h : Undisturbed w) (he : Exact w) (hu : w.uploads[i]? = some u)
    (hn : u.next w.server c = some (s, pc)) (ha : Orderly w (.upload i c)) :
    Transition.run Depot.step w.depot (u.events w.loop.target w.server c) = some (depot { w with
      server := s, uploads := w.uploads.set i { u with pc := pc }, terminated := t }) := by
  obtain ⟨rest, hrest, hdepot⟩ := depot_set (t := t) h hu hn ha
  have hused := used_depot he
  have hnames := names_eq h
  have hcapacity : w.depot.capacity = w.server.maxAvailableSpace.toNat := rfl
  have hdisk := h.onDisk hu
  have htouches : c.touches → w.loop.target ≠ some u.filename := fun ht => ha.2 ht u (by simp [hu])
  rw [hdepot]
  have hself : some { w.depot with
      entrants := u.entrants w.server.folder w.loop.target + rest } = some w.depot := by
    rw [← hrest]
  cases Upload.next_cases hn with
  | reserve before name fits =>
    have hok : (w.server.checkAndReserveSpace u.fileSize).1 = true :=
      (w.server.checkAndReserveSpace_iff _).mpr fits
    have hnone : u.entrants w.server.folder w.loop.target = 0 := by
      simp [Upload.entrants, before, UploadPc.holds, UploadPc.owns]
    refine run_event (by simp only [Upload.events, if_pos name, hok]; rfl) rfl ?_
    rw [Depot.step, if_pos (by simpa [hused, hcapacity] using fits), hrest, hnone]
    simp [Upload.entrants, UploadPc.holds, UploadPc.owns, Upload.held]
  | reject before unfit =>
    have hsame : Upload.entrants w.server.folder w.loop.target { u with pc := .refusing } =
        u.entrants w.server.folder w.loop.target := by
      simp [Upload.entrants, before, UploadPc.holds, UploadPc.owns]
    by_cases hname : acceptableName u.filename
    · have hok : (w.server.checkAndReserveSpace u.fileSize).1 = false := by
        simpa using fun h => unfit ⟨hname, h⟩
      refine run_event (by simp only [Upload.events, if_pos hname, hok]; rfl) rfl ?_
      have hfull : ¬w.depot.used + u.fileSize.toNat ≤ w.depot.capacity := by
        rw [hused, hcapacity, ← Server.checkAndReserveSpace_iff, hok]
        simp
      rw [Depot.step, if_pos (by simpa using hfull), hsame, ← hrest]
      rfl
    · exact run_quiet hrest (if_neg hname) rfl hsame
  | add before fresh =>
    have hone : u.entrants w.server.folder w.loop.target = {⟨none, u.fileSize.toNat, none⟩} := by
      simp [Upload.entrants, before, UploadPc.holds, UploadPc.owns, Upload.held]
    have hnew : Upload.arrived w.server.folder w.loop.target { u with pc := .accepted } = none :=
      arrived_eq_none (u := { u with pc := .accepted }) (h.absent fresh)
    refine run_event (e := .claim u.filename u.fileSize.toNat true)
      (by simp [Upload.events, Server.addFileToStorage, fresh]) rfl ?_
    rw [Depot.step, if_pos ⟨by simp [hrest, hone], by simp [hnames, fresh]⟩, hrest, hone]
    simp [Upload.entrants, Upload.entrant, UploadPc.owns, UploadPc.holds, Upload.held, hnew]
  | taken before mem =>
    have hone : u.entrants w.server.folder w.loop.target = {⟨none, u.fileSize.toNat, none⟩} := by
      simp [Upload.entrants, before, UploadPc.holds, UploadPc.owns, Upload.held]
    have hsame : Upload.entrants w.server.folder w.loop.target { u with pc := .nameTaken } =
        u.entrants w.server.folder w.loop.target := by
      rw [hone]
      simp [Upload.entrants, UploadPc.holds, UploadPc.owns, Upload.held]
    refine run_event (e := .claim u.filename u.fileSize.toNat false)
      (by simp [Upload.events, Server.addFileToStorage, mem]) rfl ?_
    rw [Depot.step, if_pos ⟨by simp [hrest, hone], by simp [hnames, mem]⟩, hsame, hself]
    rfl
  | freeTaken before =>
    have hone : u.entrants w.server.folder w.loop.target = {⟨none, u.fileSize.toNat, none⟩} := by
      simp [Upload.entrants, before, UploadPc.holds, UploadPc.owns, Upload.held]
    refine run_event (e := .giveBack none u.fileSize.toNat)
      (by simp [Upload.events, before, UploadPc.owns]) rfl ?_
    rw [Depot.step, if_pos (by simp [hrest, hone]), hrest, hone]
    simp [Upload.entrants, UploadPc.holds, UploadPc.owns]
  | freeAnnounce before =>
    simp only [Upload.OnDisk, before] at hdisk
    exact depot_giveBack hrest (by rw [before]; rfl) (by rw [before]; rfl) (arrived_eq_none hdisk)
      rfl rfl rfl
  | free before =>
    simp only [Upload.OnDisk, before] at hdisk
    exact depot_giveBack hrest (by rw [before]; rfl) (by rw [before]; rfl)
      (arrived_eq_none (Or.inl hdisk)) rfl rfl rfl
  | forget before =>
    have hnone : u.arrived w.server.folder w.loop.target = none := by
      rcases before with before | before <;> simp only [Upload.OnDisk, before] at hdisk
      · exact arrived_eq_none hdisk
      · exact arrived_eq_none (Or.inl hdisk)
    have ho : u.pc.owns := by rcases before with before | before <;> rw [before] <;> rfl
    have hone : u.entrants w.server.folder w.loop.target = {⟨some u.filename, u.held, none⟩} := by
      rw [Upload.entrants, if_pos ho, Upload.entrant, hnone]
    have hheld : u.held = 0 := by
      rcases before with before | before <;> rw [Upload.held, before] <;> rfl
    refine run_event (e := .forget u.filename) rfl rfl ?_
    rw [Depot.step, if_pos (by simp [hrest, hone, hheld]), hrest, hone, hheld]
    simp [Upload.entrants, UploadPc.holds, UploadPc.owns]
  | create before opened => exact depot_create hrest hdisk before opened (htouches rfl)
  | flush before n => exact depot_flush hrest hdisk before n
  | close before =>
    refine depot_close hrest hdisk before hn fun hf => ?_
    exact ((mem_files_iff h).mp hf).2 ⟨u, List.mem_of_getElem? hu, by rw [before]; rfl, rfl⟩
  | remove before removed => exact depot_drop hrest before removed (htouches rfl)
  | closeFail before => cases ha.1.2
  | spoil before => cases ha.1.2
  | announce before | announceFail before | refuse before
  | ready before | notReady before | accept before | openFail before
  | piece before | endOfStream before | readFail before
  | found before | absent before | existsThrows before | removeThrows before =>
    exact run_quiet hrest rfl rfl (by simp [Upload.entrants, Upload.entrant, Upload.arrived, before,
      UploadPc.holds, UploadPc.owns, Upload.held])

end Upload

theorem depot_of_idle (h : w.loop.target = none) :
    w.depot = { w.store with
      entrants := (w.uploads.map (Upload.entrants w.server.folder none)).sum
      leaving := none } := by
  rw [depot, entrants, h]
  rfl

theorem depot_of_removing {pc : RemovalPc} {bs : Bytes} {n : ℕ} (h : w.loop = .removing f pc)
    (hbs : w.server.folder.content f = some bs) (hn : w.debt = n) :
    w.depot = { w.store with
      entrants := (w.uploads.map (Upload.entrants w.server.folder (some f))).sum
      leaving := some ⟨f, bs, n⟩ } := by
  have htarget : w.loop.target = some f := by rw [h]; rfl
  rw [depot, entrants, htarget, hn, Option.map_some, hbs]
  rfl

/-- No upload has the name when its removal begins. -/
theorem entrants_erase (ho : ¬w.Owned f) :
    w.uploads.map (Upload.entrants w.server.folder (some f)) =
      w.uploads.map (Upload.entrants w.server.folder none) := by
  refine List.map_congr_left fun u hu => ?_
  unfold Upload.entrants
  split_ifs with howns
  · have hname : f ≠ u.filename := fun he => ho ⟨u, hu, howns, he.symm⟩
    simp [Upload.entrant, Upload.arrived, hname]
  · rfl
  · rfl

/-- When a file is gone, an upload that has claimed its name has nothing in the folder. -/
theorem entrants_remove {folder : Folder Filename} (h : w.server.folder.remove f = some folder) :
    w.uploads.map (Upload.entrants folder none) =
      w.uploads.map (Upload.entrants w.server.folder (some f)) := by
  refine List.map_congr_left fun u _ => ?_
  unfold Upload.entrants
  split_ifs with howns
  · by_cases hname : u.filename = f
    · have hcontent : folder.content f = none := by
        rw [Folder.content_eq_none_iff, w.server.folder.inode_remove h, if_pos rfl]
      simp [Upload.entrant, Upload.arrived, hname, hcontent]
    · have hcontent := (Folder.changesOnly_remove h).content hname
      simp [Upload.entrant, Upload.arrived, Ne.symm hname, hcontent]
  · rfl
  · rfl

/-- A removal takes the file out when it begins. -/
theorem depot_erase (h : Undisturbed w) (hidle : w.loop = .idle) (ho : ¬w.Owned f)
    (source : SockAddr) :
    w.depot.step (.del f ((w.server.removeFileFromStorage f).1 > 0)) =
      some (w.start source (.remove f)).depot := by
  have hdepot := depot_of_idle (w := w) (by rw [hidle]; rfl)
  have hstored : f ∈ w.depot.files ↔ f ∈ w.server.filesInStorage :=
    (mem_files_iff h).trans (and_iff_left ho)
  have hfound : decide ((w.server.removeFileFromStorage f).1 > 0) =
      decide (f ∈ w.depot.files) := by
    by_cases hf : f ∈ w.server.filesInStorage <;> simp [Server.removeFileFromStorage, hstored, hf]
  have hlookup := lookup_files w f
  rw [Depot.step, if_pos ⟨hfound, by rw [hdepot], fun hc => ho (mem_claimed_iff.mp hc)⟩]
  by_cases hf : f ∈ w.server.filesInStorage
  · have hloop : (w.start source (.remove f)).loop = .removing f .erased := by
      simp [start, Server.removeFileFromStorage, hf]
    obtain ⟨bs, hbs⟩ := Option.ne_none_iff_exists'.mp
      (mt w.server.folder.content_eq_none_iff.mp (h.stored ⟨hf, ho⟩).1)
    rw [if_pos ⟨hf, ho⟩, hbs] at hlookup
    have hdebt : (w.start source (.remove f)).debt = bs.length := by
      rw [debt, hloop]
      exact congrArg (fun o : Option Bytes => (o.getD []).length) hbs
    rw [depot_of_removing hloop hbs hdebt, store_erase,
      show w.depot.files.lookup f = some bs from hlookup, hdepot, ← entrants_erase ho]
    rfl
  · have hloop : (w.start source (.remove f)).loop = .idle := by
      simp [start, Server.removeFileFromStorage, hf]
    rw [if_neg fun hs => hf hs.1] at hlookup
    rw [depot_of_idle (w := w.start source (.remove f)) (by rw [hloop]; rfl), store_erase,
      show w.depot.files.lookup f = none from hlookup, hdepot]
    rfl

/-- The other calls of a removal give its space back and end it. -/
theorem depot_removal (h : Undisturbed w) (he : Exact w) {c : RemovalCall} {pc : RemovalPc}
    (hloop : w.loop = .removing f pc) (hn : w.removeNext f pc c = some w')
    (ha : FilesOk w (.remove c)) :
    Transition.run Depot.step w.depot (w.events (.remove c)) = some w'.depot := by
  have hstore := h.store_removal hloop hn
  have hlt := w.server.usedSpace.toNat_lt
  obtain ⟨cs, hcs⟩ := Option.ne_none_iff_exists'.mp
    (mt w.server.folder.content_eq_none_iff.mp (h.target (f := f) (by rw [hloop]; rfl)))
  unfold Exact at he
  cases removeNext_cases hn with
  | @measure bs before content =>
    have hdebt : w.debt = bs.length := by
      rw [debt, hloop, before]
      exact congrArg (fun o : Option Bytes => (o.getD []).length) content
    have hsize : (UInt64.ofNat bs.length).toNat = bs.length :=
      UInt64.toNat_ofNat_of_lt' (by have : UInt64.size = 2 ^ 64 := rfl; omega)
    have hdebt' : debt { w with loop := .removing f (.measured (UInt64.ofNat bs.length)) } =
        bs.length := hsize
    rw [depot_of_removing hloop content hdebt, depot_of_removing
      (w := { w with loop := .removing f (.measured (UInt64.ofNat bs.length)) }) rfl content hdebt',
      hstore]
    rfl
  | @release size before =>
    rw [depot_of_removing hloop hcs rfl, depot_of_removing
      (w := { w with server := w.server.freeSpace size, loop := .removing f .released }) rfl hcs
      rfl, hstore]
    rfl
  | @remove folder before remove =>
    have hdebt : w.debt = 0 := by rw [debt, hloop, before]
    rw [depot_of_removing hloop hcs hdebt, depot_of_idle rfl, hstore]
    refine (run_singleton ..).trans ?_
    dsimp only
    rw [entrants_remove remove]
    rfl
  | fail call => exact (h.removal_ok hloop ha call).elim

/-- What a download opens is what the name leads to in the depot. -/
theorem depot_read (h : Undisturbed w) {j : ℕ} {v : Download} (hj : w.downloads[j]? = some v)
    {ok : Bool} (ha : Orderly w (.download j (.openFile ok))) :
    w.depot.step (.read v.filename
      (if ok then w.server.folder.content v.filename else none)) = some w.depot := by
  -- the open fails only if there is no file
  have hfile : (if ok then w.server.folder.content v.filename else none) =
      w.server.folder.content v.filename := by
    have hok := ha.1.1
    simp only [fileCall, hj, Option.map_some] at hok
    cases hi : w.server.folder.content v.filename with
    | none => exact ite_self _
    | some bs =>
      have hinode := mt w.server.folder.content_eq_none_iff.mpr (hi ▸ Option.some_ne_none bs)
      rw [if_pos (hok (Option.isSome_iff_ne_none.mpr hinode))]
  rw [hfile]
  refine if_pos ?_
  unfold Depot.Reads
  have hleaving : w.depot.leaving.map Depot.Leaving.name = w.loop.target := by
    simp [depot, Function.comp_def]
  rw [hleaving]
  split_ifs with ht ho
  · obtain ⟨bs, hbs⟩ := Option.ne_none_iff_exists'.mp
      (mt w.server.folder.content_eq_none_iff.mp (h.target ht))
    simp [depot, ht, hbs]
  · obtain ⟨u, hu, howns, hname⟩ := mem_claimed_iff.mp ho
    refine Multiset.mem_map.mpr ⟨u.entrant w.server.folder w.loop.target,
      mem_entrants.mpr ⟨u, hu, by simp [Upload.entrants, howns]⟩, ?_⟩
    simp [Upload.entrant, Upload.arrived, hname, ht]
  · have ho := mt mem_claimed_iff.mpr ho
    have hlookup := lookup_files w v.filename
    by_cases hf : v.filename ∈ w.server.filesInStorage
    · rw [if_pos ⟨hf, ho⟩] at hlookup
      exact hlookup.symm
    · rw [if_neg fun hs => hf hs.1] at hlookup
      rw [w.server.folder.content_eq_none_iff.mpr ((h.absent hf).resolve_right ht)]
      exact hlookup.symm

/-- Every orderly step is what its events do to the depot. -/
theorem depot_step (h : Undisturbed w) (he : Exact w) (ha : Orderly w a)
    (hs : w.step a = some w') :
    Transition.run Depot.step w.depot (w.events a) = some w'.depot := by
  cases move_of_step hs with
  | stay call =>
    have hnone : w.events a = [] := by
      rcases call with rfl | ⟨d, rfl, hd⟩
      · rfl
      · simp only [events]
        split <;> rename_i hr
        · exact (hd _ hr).elim
        · exact (hd _ hr).elim
        · rfl
    rw [hnone]
    rfl
  | @start d r idle request =>
    have htarget : w.loop.target = none := by rw [idle]; rfl
    cases r with
    | discover seq =>
      simp only [events, request]
      rw [depot_of_idle htarget, depot_of_idle rfl]
      rfl
    | filesList seq pattern =>
      simp only [events, request]
      rfl
    | file seq f =>
      simp only [events, request]
      have hsame : (w.start d.source (.file seq f)).depot = w.depot := by
        unfold start
        dsimp only
        split_ifs <;> rfl
      rw [hsame, run_singleton, Depot.step, if_pos (by simp [names_eq h, Server.isInStorage])]
    | remove f =>
      simp only [events, request]
      exact (run_singleton ..).trans
        (depot_erase h idle (ha.2 f (Action.removes_receive request)) d.source)
    | upload seq f n =>
      simp only [events, request]
      rw [depot_of_idle htarget, depot_of_idle (by exact htarget), start, store_append rfl]
      simp [Upload.entrants, UploadPc.holds, UploadPc.owns]
  | @discovered ok source seq loop =>
    have hspace : w.server.getAvailableSpace.toNat = w.depot.capacity - w.depot.used := by
      rw [used_depot he]
      exact w.server.toNat_getAvailableSpace
    rw [depot_of_idle (w := { w with loop := .idle }) rfl]
    refine (run_singleton ..).trans ((if_pos hspace).trans ?_)
    rw [depot_of_idle (by rw [loop]; rfl)]
    rfl
  | removal loop next => exact depot_removal h he loop next ha.1
  | upload thread next =>
    rw [events, thread]
    exact depot_upload h he thread next ha
  | @download i c u pc t thread next =>
    cases c with
    | openFile ok =>
      simp only [events, thread, Option.elim_some]
      exact (run_singleton ..).trans (depot_read h thread ha)
    | _ => rfl
  | list thread running =>
    refine (run_singleton ..).trans ?_
    rw [Depot.step, if_pos (names_eq h).symm]
    rfl

/-! ## Runs -/

/-- The server at the end of a run, next to the depot that has given the same answers. -/
structure RefinesDepot (w₀ : World) (as : List Action) (w : World) : Prop where
  /-- Every answer of the run is the depot's. -/
  answers : Transition.run Depot.step w₀.depot (trace step events w₀ as).flatten = some w.depot
  names : w.depot.names = w.server.filesInStorage.toFinset
  used : w.depot.used = w.server.usedSpace.toNat
  /-- The depot has the bytes that are in the folder. -/
  lookup f : w.depot.files.lookup f = if w.Stored f then w.server.folder.content f else none
  within : w.depot.used ≤ max w₀.depot.capacity w₀.depot.used

/-- At the start the depot has the files of the folder, and nothing is under way. -/
theorem depot_initial {max : UInt64} {folder : Folder Filename} {listing : List Filename}
    (hl : Lists listing folder) :
    ∃ s : Store Filename, s.capacity = max.toNat ∧ (∀ f, s.files.lookup f = folder.content f) ∧
      (initial (Server.generateFilesInStorage max folder listing)).depot =
        { s with entrants := 0, leaving := none } :=
  ⟨_, by simp [store, initial], lookup_store_initial hl, depot_of_idle rfl⟩

/-- A server that handles any number of requests at the same time refines a depot : in every
orderly run its calls are events of the depot, with the depot's answers, whatever their order. -/
theorem refines_depot {max : UInt64} {folder : Folder Filename} {listing : List Filename}
    {as : List Action} (hl : Lists listing folder)
    (hlt : ∑ f ∈ (Server.generateFilesInStorage max folder listing).filesInStorage.toFinset,
      folder.size f < 2 ^ 64)
    (hr : run (initial (Server.generateFilesInStorage max folder listing)) as = some w)
    (hP : Along World.step Orderly
      (initial (Server.generateFilesInStorage max folder listing)) as) :
    (∃ s : Store Filename, s.capacity = max.toNat ∧ (∀ f, s.files.lookup f = folder.content f) ∧
      (initial (Server.generateFilesInStorage max folder listing)).depot =
        { s with entrants := 0, leaving := none }) ∧
      RefinesDepot (initial (Server.generateFilesInStorage max folder listing)) as w := by
  refine ⟨depot_initial hl, ?_⟩
  obtain ⟨h, he, hrun⟩ := run_induction_trace events hr hP
    (fun es w => Undisturbed w ∧ Exact w ∧ Transition.run Depot.step
      (initial (Server.generateFilesInStorage max folder listing)).depot es = some w.depot)
    ⟨undisturbed_initial hl, exact_initial hl hlt, rfl⟩ fun es w a w' hI ha hs => by
      obtain ⟨h, he, hrun⟩ := hI
      refine ⟨h.step ha hs, he.step h ha hs, ?_⟩
      rw [run_append, hrun, Option.bind_some, depot_step h he ha hs]
  exact ⟨hrun, names_eq h, used_depot he, lookup_files w, Depot.run_used_le hrun⟩

theorem orderlyRun_refines : ∃ w, run (started 10) orderlyRun = some w ∧
    (∃ s : Store Filename, s.capacity = 10 ∧
      (∀ f, s.files.lookup f = Folder.empty.content f) ∧
      (started 10).depot = { s with entrants := 0, leaving := none }) ∧
    RefinesDepot (started 10) orderlyRun w := by
  obtain ⟨w, hr⟩ := Option.isSome_iff_exists.mp (by decide : (run (started 10) orderlyRun).isSome)
  exact ⟨w, hr, refines_depot lists_empty (by decide) hr (by decide)⟩

end World

end Netstore
