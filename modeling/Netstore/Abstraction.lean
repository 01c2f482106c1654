import Netstore.Accounting
import Netstore.Store

/-!
# The store a server keeps

The store of a running server (`World.store`) has the stored names, those in the index
that no upload owns, with what the disk has under them. Its size is what the counter
counts for stored files (`total_store`).

In orderly runs an upload adds its file to the store at the step that ends it with its
file kept, a removal takes the file away at the step that erases the name, and no other
step changes the store (`Undisturbed.store_step`).
-/

namespace Netstore

/-- Looking up what was made of a list of keys. -/
theorem dlookup_filterMap {α β : Type*} [DecidableEq α] (g : α → Option β) (l : List α) (a : α) :
    (l.filterMap fun f => (g f).map (Sigma.mk (β := fun _ => β) f)).dlookup a =
      if a ∈ l then g a else none := by
  induction l with
  | nil => simp
  | cons f l ih =>
    cases hg : g f with
    | none =>
      simp only [List.filterMap_cons, hg, Option.map_none, ih, List.mem_cons]
      by_cases haf : a = f
      · subst haf
        simp [hg]
      · simp [haf]
    | some b =>
      simp only [List.filterMap_cons, hg, Option.map_some, List.mem_cons]
      by_cases haf : a = f
      · subst haf
        simp [hg]
      · rw [List.dlookup_cons_ne _ _ haf, ih]
        simp [haf]

namespace World

/-- The stored names with what the disk has under them. -/
def files (w : World) : Finmap fun _ : Filename => Bytes :=
  ((w.server.filesInStorage.toList.filter fun f => ¬w.Owned f).filterMap fun f =>
    (w.server.folder.content f).map (Sigma.mk f)).toFinmap

/-- The store that the server keeps. -/
def store (w : World) : Store Filename :=
  ⟨w.server.maxAvailableSpace.toNat, w.files⟩

instance (w : World) (f : Filename) : Decidable (w.Stored f) :=
  inferInstanceAs (Decidable (_ ∧ _))

variable {w w' : World} {a : Action} {f : Filename} {bs : Bytes}

theorem lookup_files (w : World) (f : Filename) :
    w.files.lookup f = if w.Stored f then w.server.folder.content f else none := by
  have hmem : (f ∈ w.server.filesInStorage.toList.filter fun g => ¬w.Owned g) ↔ w.Stored f := by
    simp [Stored]
  rw [files, Finmap.dlookup_list_toFinmap, dlookup_filterMap]
  split_ifs with h₁ h₂ h₂
  · rfl
  · exact (h₂ (hmem.mp h₁)).elim
  · exact (h₁ (hmem.mpr h₂)).elim
  · rfl

/-! ## What the store depends on -/

theorem files_congr (hst : ∀ g, w'.Stored g ↔ w.Stored g)
    (hc : ∀ g, w.Stored g → w'.server.folder.content g = w.server.folder.content g) :
    w'.files = w.files := by
  refine Finmap.ext_lookup fun g => ?_
  rw [lookup_files, lookup_files]
  by_cases hg : w.Stored g
  · rw [if_pos hg, if_pos ((hst g).mpr hg), hc g hg]
  · rw [if_neg hg, if_neg fun h => hg ((hst g).mp h)]

theorem files_insert (hst : ∀ g, w'.Stored g ↔ g = f ∨ w.Stored g)
    (hf : w'.server.folder.content f = some bs)
    (hc : ∀ g ≠ f, w.Stored g → w'.server.folder.content g = w.server.folder.content g) :
    w'.files = w.files.insert f bs := by
  refine Finmap.ext_lookup fun g => ?_
  rw [lookup_files]
  by_cases hg : g = f
  · subst hg
    rw [Finmap.lookup_insert, if_pos ((hst g).mpr (Or.inl rfl)), hf]
  · rw [Finmap.lookup_insert_of_ne _ hg, lookup_files]
    by_cases hs : w.Stored g
    · rw [if_pos hs, if_pos ((hst g).mpr (Or.inr hs)), hc g hg hs]
    · rw [if_neg hs, if_neg fun h => ((hst g).mp h).elim hg hs]

theorem files_erase (hst : ∀ g, w'.Stored g ↔ g ≠ f ∧ w.Stored g)
    (hc : ∀ g, w.Stored g → w'.server.folder.content g = w.server.folder.content g) :
    w'.files = w.files.erase f := by
  refine Finmap.ext_lookup fun g => ?_
  rw [lookup_files]
  by_cases hg : g = f
  · subst hg
    rw [Finmap.lookup_erase, if_neg fun h => ((hst g).mp h).1 rfl]
  · rw [Finmap.lookup_erase_ne hg, lookup_files]
    by_cases hs : w.Stored g
    · rw [if_pos hs, if_pos ((hst g).mpr ⟨hg, hs⟩), hc g hs]
    · rw [if_neg hs, if_neg fun h => hs ((hst g).mp h).2]

/-- The size of the store is what the counter counts for stored files. -/
theorem total_store (w : World) : w.store.total = w.storedSize := by
  have hsub : w.files.keys ⊆
      w.server.filesInStorage.toFinset.filter fun g => ¬w.Owned g := by
    intro g hg
    rw [mem_stored]
    by_contra hs
    refine Finmap.lookup_eq_none.mp ?_ (Finmap.mem_keys.mp hg)
    rw [lookup_files, if_neg hs]
  rw [Store.total, storedSize]
  refine (Finset.sum_subset hsub fun g _ hg => ?_).trans (Finset.sum_congr rfl fun g hg => ?_)
  · rw [show w.store.files.lookup g = none from Finmap.lookup_eq_none.mpr fun h =>
      hg (Finmap.mem_keys.mpr h)]
    rfl
  · rw [show w.store.files.lookup g = w.server.folder.content g from
      (lookup_files w g).trans (if_pos (mem_stored.mp hg))]
    rfl

/-! ## What a step does to the store -/

section Upload

variable {i : ℕ} {c : UploadCall} {u : Upload} {s : Server} {pc : UploadPc} {t : Bool}

/-- A call of an upload puts the file in the store when it ends it with its file kept. -/
theorem Undisturbed.store_upload (h : Undisturbed w) (hu : w.uploads[i]? = some u)
    (hn : u.next w.server c = some (s, pc)) (ha : Orderly w (.upload i c)) (t : Bool) :
    store { w with server := s, uploads := w.uploads.set i { u with pc := pc }, terminated := t } =
      pc.keptBytes.elim w.store (w.store.put u.filename) := by
  have hcont : ∀ g, w.Stored g → s.folder.content g = w.server.folder.content g := fun g hg =>
    h.content_upload hu hn ha (Or.inl hg.2)
  have hmax := Upload.maxAvailableSpace_next hn
  rw [store, hmax]
  cases hk : pc.keptBytes with
  | none =>
    have hbefore : u.pc.keptBytes = none := by
      cases Upload.next_effect hn with
      | quiet used files share =>
        simp only [UploadPc.share, Prod.mk.injEq] at share
        rw [← share.2.2, hk]
      | reserve fits before after eq => rw [before]; rfl
      | release before after eq => cases hpc : u.pc <;> simp_all [UploadPc.holds, UploadPc.keptBytes]
      | insert fresh before after eq => rw [before]; rfl
      | erase before after eq => rcases before with before | before <;> rw [before] <;> rfl
      | keep bs used files before after =>
        simp only [UploadPc.share, Prod.mk.injEq] at before
        exact before.2.2
    rw [files_congr (stored_set hu hn (hk.trans hbefore.symm)) hcont]
    rfl
  | some bs =>
    obtain rfl : pc = .kept bs := by
      cases pc <;> simp_all [UploadPc.keptBytes]
    obtain ⟨⟨ok, st, rfl, hpc⟩, hs⟩ := Upload.closing_of_kept hn
    have hown : u.pc.owns := by rw [hpc]; rfl
    have hfiles : s.filesInStorage = w.server.filesInStorage := by rw [hs]
    rw [files_insert (h.stored_kept _ _ hu hown hfiles)
      (Upload.content_of_kept hn (h.onDisk hu) ha.1.2).1 fun g _ hg => hcont g hg]
    rfl

end Upload

/-- The request that a step completes for the store, if any. -/
inductive StoreCase (w : World) : Action → World → Prop
  | keep {i : ℕ} {c : UploadCall} {u : Upload} {bs : Bytes} {w' : World}
      (thread : w.uploads[i]? = some u)
      (after : w'.uploads[i]?.map Upload.pc = some (.kept bs))
      (eq : w'.store = w.store.put u.filename bs) : StoreCase w (.upload i c) w'
  | erase {a : Action} {f : Filename} {w' : World} (begins : beginsRemoval f a) (eq : w'.store = w.store.remove f) :
      StoreCase w a w'
  | stay {a : Action} {w' : World} (eq : w'.store = w.store) : StoreCase w a w'

/-- A removal takes its name out of the store when it begins. -/
theorem store_erase (source : SockAddr) (f : Filename) :
    (w.start source (.remove f)).store = w.store.remove f := by
  rw [store, store, Store.remove]
  refine congrArg₂ Store.mk rfl (files_erase (fun g => ?_) fun g _ => rfl)
  simp only [Stored, start, Server.removeFileFromStorage, SortedSet.mem_erase, and_assoc]
  exact Iff.rfl

/-- The calls of a removal leave the store. -/
theorem Undisturbed.store_removal (h : Undisturbed w) {f : Filename} {pc : RemovalPc}
    {c : RemovalCall} (hloop : w.loop = .removing f pc) (hn : w.removeNext f pc c = some w') :
    w'.store = w.store := by
  cases removeNext_cases hn with
  | remove before remove =>
    rw [store, store]
    refine congrArg₂ Store.mk rfl (files_congr (fun g => Iff.rfl) fun g hg => ?_)
    have hgf : g ≠ f := fun he => (h.stored hg).2 (by rw [hloop, he]; rfl)
    exact (Folder.changesOnly_remove remove).content hgf
  | _ => rfl

theorem store_congr (server : w'.server = w.server) (uploads : w'.uploads = w.uploads) :
    w'.store = w.store := by
  rw [store, store, server]
  refine congrArg₂ Store.mk rfl (files_congr (fun g => ?_) fun g _ => by rw [server])
  rw [Stored, Stored, owned_congr uploads, server]

theorem store_append {u : Upload} (hu : u.pc.owns = false) :
    store { w with uploads := w.uploads ++ [u] } = w.store := by
  rw [store, store]
  refine congrArg₂ Store.mk rfl (files_congr (fun g => ?_) fun g _ => rfl)
  exact and_congr_right' (not_congr (owned_append hu))

/-- An orderly step changes the store only by the end of an upload or the beginning of a
removal. -/
theorem Undisturbed.store_step (h : Undisturbed w) (ha : Orderly w a)
    (hs : w.step a = some w') : StoreCase w a w' := by
  cases step_cases hs with
  | @upload i c u s pc thread next terminated =>
    have heq := h.store_upload thread next ha terminated
    cases hk : pc.keptBytes with
    | none => exact .stay (by rw [heq, hk]; rfl)
    | some bs =>
      obtain rfl : pc = .kept bs := by
        cases pc <;> simp_all [UploadPc.keptBytes]
      refine .keep thread ?_ heq
      rw [List.getElem?_set_self (List.getElem?_eq_some_iff.mp thread).1]
      rfl
  | spawn => exact .stay (store_append rfl)
  | @erase d f idle request =>
    exact .erase (f := f) (by simp [beginsRemoval, Action.removes_receive request]) (store_erase _ _)
  | removal loop next => exact .stay (h.store_removal loop next)
  | other call server uploads removal => exact .stay (store_congr server uploads)

/-- At the start the store is the regular files of the folder. -/
theorem lookup_store_initial {max : UInt64} {folder : Folder Filename} {listing : List Filename}
    (hl : Lists listing folder) (f : Filename) :
    (initial (Server.generateFilesInStorage max folder listing)).store.files.lookup f =
      folder.content f := by
  have hmem := Server.mem_generateFilesInStorage max folder listing (f := f)
  rw [store, lookup_files]
  split_ifs with hf
  · simp [initial]
  · rw [eq_comm, folder.content_eq_none_iff]
    by_contra hi
    refine hf ⟨hmem.mpr ⟨hl.2 f hi, hi⟩, ?_⟩
    simp [Owned, initial]

end World

end Netstore
