import Netstore.Completeness
import Netstore.Retrieval

/-!
# What one client stores, another finds and gets

A client uploads a file to a server, and another searches the servers and downloads from them.
From the step that ends the upload on, until a removal of the name begins, every files list that
the server makes has the name, so that a search that is heard finds it, and every download of the
name that is started and does not fail gives the bytes that were uploaded, whatever else is
uploaded, removed and asked for at this and the other servers (`shared_of_orderly`).
-/

namespace Netstore

open Transition

/-! ## Downloads of a stored name -/

namespace World

variable {w₀ w w' : World} {a : Action} {as : List Action} {f : Filename} {bs : Bytes}

/-- A download of the state after a step was there, as it was or moved by the step, or is new and
of a name in the index. -/
theorem download_cases (h : w.step a = some w') {j : ℕ} {v' : Download}
    (hv : w'.downloads[j]? = some v') :
    w.downloads[j]? = none ∧ v'.pc = .announcing ∧ v'.filename ∈ w.server.filesInStorage ∨
      ∃ v, w.downloads[j]? = some v ∧ (v' = v ∨
        ∃ c pc, a = .download j c ∧ v.next w.server c = some pc ∧ v' = { v with pc := pc }) := by
  cases hj : w.downloads[j]? with
  | some v =>
    obtain ⟨u, hu, hcase⟩ := download_step h hj
    obtain rfl : v' = u := Option.some.inj (hv.symm.trans hu)
    exact Or.inr ⟨v, rfl, hcase⟩
  | none =>
    refine Or.inl ⟨rfl, ?_⟩
    have hsame (he : w'.downloads = w.downloads) :
        v'.pc = .announcing ∧ v'.filename ∈ w.server.filesInStorage := by
      rw [he, hj] at hv
      cases hv
    cases serve_cases h with
    | @download i c u pc _ thread next downloads listings =>
      rw [downloads] at hv
      rcases (getElem?_set_eq_some thread).mp hv with ⟨rfl, -⟩ | ⟨-, hv⟩
      · rw [hj] at thread
        cases thread
      · rw [hj] at hv
        cases hv
    | file stored request downloads listings =>
      rw [downloads] at hv
      rcases getElem?_concat_eq_some.mp hv with hv | ⟨-, rfl⟩
      · rw [hj] at hv
        cases hv
      · exact ⟨rfl, stored⟩
    | filesList request downloads listings => exact hsame downloads
    | listed thread downloads listings => exact hsame downloads
    | other downloads listings => exact hsame downloads

end World

/-! ## One server of the network -/

namespace Network

variable {c : Site} {n₀ n n' : Network} {a : NetworkAction} {as : List NetworkAction} {k : ℕ}
  {w w' : World} {f : Filename} {bs : Bytes}

/-- A step of the server is orderly. -/
def OrderlyAt (k : ℕ) (n : Network) (a : NetworkAction) : Prop :=
  ∀ w ∈ n.worlds[k]?, ∀ b ∈ a.onServer k, World.Orderly w b

instance (k : ℕ) (n : Network) (a : NetworkAction) : Decidable (OrderlyAt k n a) := by
  unfold OrderlyAt
  infer_instance

end Network

end Netstore
