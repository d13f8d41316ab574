/-
# `Ls.Recursion` — where the recursion of `listDirectoryContents` ends

With -R a call for a directory calls itself for the files that it has collected and that are
directories, by the path in their `filename`, which is cut off at 1023 bytes.  The run ends
without a fault exactly if these calls are well-founded, all of their directories can be opened
and what is in them can be printed (`ends_iff`); no call looks at what `opendir` returns.

    -a                      "." leads back to the directory itself
    a path of 1022 bytes    `path/name` is cut off to `path/`
    a path of 1023 bytes    it is cut off to `path`
-/
import Mathlib.Logic.Relation
import Nyctomek.Ls.Directories

namespace Nyctomek.Ls

open Prog

/-- The call for `p` calls itself for `c`. -/
def Calls (fs : FileSystem) (options : UInt32) (c p : Bytes) : Prop :=
  options &&& DASH_R ≠ 0 ∧ ∃ entries file, fs.readdir p = some entries ∧
    file ∈ collect fs options p entries ∧ file.statInfo.isDirectory ∧ file.filename = c

/-- The directories of all calls. -/
def Visits (fs : FileSystem) (options : UInt32) : Bytes → Bytes → Prop :=
  Relation.ReflTransGen fun p c => Calls fs options c p

/-- All directories of the calls can be opened. -/
def AllOpen (fs : FileSystem) (options : UInt32) (path : Bytes) : Prop :=
  ∀ q, Visits fs options path q → fs.readdir q ≠ none

/-- What is in the directories of the calls can be printed. -/
def AllPrintable (sys : System) (fs : FileSystem) (options : UInt32) (path : Bytes) : Prop :=
  ∀ q, Visits fs options path q → DirectoryPrintable sys fs options q

/-- A directory has been listed, with all that was collected of it. -/
structure Listing.IsOf (sys : System) (std : StdSort) (fs : FileSystem) (options : UInt32) (q : Bytes)
    (listing : Listing) : Prop where
  directory : listing.directory = q
  fileInfo : ∃ entries, fs.readdir q = some entries ∧
    listing.fileInfo = listedFiles std fs options q entries
  printed : listFileInfo sys listing.fileInfo options (snprintf (q ++ [slash])).1
    = .ok listing.printed

def HasListing (sys : System) (std : StdSort) (fs : FileSystem) (options : UInt32)
    (listings : List Listing) (q : Bytes) : Prop :=
  ∃ listing ∈ listings, listing.IsOf sys std fs options q

section
variable {sys : System} {std : StdSort} {fs : FileSystem} {options : UInt32}
  {heap : Heap FileInfoListNode} {path q n : Bytes} {entries : List Bytes} {files : List FileInfo}

theorem AllOpen.calls (hopen : AllOpen fs options path) {c : Bytes} (hc : Calls fs options c path) :
    AllOpen fs options c :=
  fun q hq => hopen q (hq.head hc)

theorem AllPrintable.calls (hprintable : AllPrintable sys fs options path) {c : Bytes}
    (hc : Calls fs options c path) : AllPrintable sys fs options c :=
  fun q hq => hprintable q (hq.head hc)

theorem visits_iff : Visits fs options path q ↔
    path = q ∨ ∃ c, Calls fs options c path ∧ Visits fs options c q :=
  Relation.ReflTransGen.cases_head_iff

theorem calls_iff (hopened : fs.readdir path = some entries) {c : Bytes} : Calls fs options c path ↔
    options &&& DASH_R ≠ 0 ∧ ∃ file ∈ listedFiles std fs options path entries,
      file.statInfo.isDirectory ∧ file.filename = c := by
  simp only [Calls, hopened, Option.some.injEq, exists_and_left, exists_eq_left', listedFiles,
    (sortedFiles_perm std options _).mem_iff]

theorem isOf_listingOf {printed : List Printed} (hopened : fs.readdir path = some entries)
    (hprinted : listFileInfo sys (listedFiles std fs options path entries) options
      (snprintf (path ++ [slash])).1 = .ok printed) (printHeaderRow : Bool) :
    (listingOf std fs options path entries printHeaderRow printed).IsOf sys std fs options path where
  directory := rfl
  fileInfo := ⟨entries, hopened, rfl⟩
  printed := hprinted

theorem HasListing.of_subset {listings listings' : List Listing}
    (h : HasListing sys std fs options listings q) (hsub : listings ⊆ listings') :
    HasListing sys std fs options listings' q := by
  obtain ⟨listing, hmem, hlisting⟩ := h
  exact ⟨listing, hsub hmem, hlisting⟩

/-! ## What a call comes to -/

/-- What a call of `recurse` may end with: listings of which `Q` holds, or a fault, and then `E`
does. -/
def MayEnd (Q : List Listing → Prop) (E : Prop) (h : Heap FileInfoListNode)
    (r : Except Fault (List Listing × Heap FileInfoListNode)) : Prop :=
  (∃ listings h', r = .ok (listings, h') ∧ h.Keeps h' ∧ Q listings) ∨ ((∃ e, r = .error e) ∧ E)

/-- The loop over the sorted entries has gone through, or one of the directories has failed. -/
theorem subdirectories_done {recurse : Heap FileInfoListNode → FileInfo →
      Exec Fault (List Listing × Heap FileInfoListNode)} {Q : FileInfo → List Listing → Prop}
    {E : FileInfo → Prop}
    (hrecurse : ∀ file ∈ files, file.statInfo.isDirectory → ∀ h r, recurse h file = done r →
      MayEnd (Q file) (E file) h r)
    {s : List Listing × Heap FileInfoListNode}
    {r : Except Fault (List Listing × Heap FileInfoListNode)}
    (hdone : files.foldlM (listSubdirectory recurse) s = done r) :
    MayEnd (fun listings => s.1 ⊆ listings ∧ ∀ file ∈ files, file.statInfo.isDirectory →
        ∃ deeper ⊆ listings, Q file deeper)
      (∃ file ∈ files, file.statInfo.isDirectory ∧ E file) s.2 r := by
  induction files generalizing s with
  | nil =>
      obtain rfl := done_inj hdone
      exact .inl ⟨s.1, s.2, rfl, .refl _, List.Subset.refl _, List.forall_mem_nil _⟩
  | cons file files ih =>
      have htail := fun f hf => hrecurse f (List.mem_cons_of_mem _ hf)
      rw [List.foldlM_cons, listSubdirectory] at hdone
      by_cases hdir : file.statInfo.isDirectory
      · rw [if_pos hdir, bind_assoc] at hdone
        rcases bind_eq_done hdone with ⟨deeper, hcall, hdone⟩ | ⟨e, hcall, rfl⟩
        · rcases hrecurse file List.mem_cons_self hdir s.2 _ hcall with
            ⟨listings, h', hok, hkeeps, hQ⟩ | ⟨⟨e, he⟩, -⟩
          · cases Except.ok.inj hok
            rcases ih htail hdone with
              ⟨listings', h'', rfl, hkeeps', hsub, hQ'⟩ | ⟨he, f, hf, hE⟩
            · have hfront := List.Subset.trans (List.subset_append_left s.1 listings) hsub
              have hdeeper := List.Subset.trans (List.subset_append_right s.1 listings) hsub
              exact .inl ⟨listings', h'', rfl, hkeeps.trans hkeeps', hfront,
                List.forall_mem_cons.mpr ⟨fun _ => ⟨listings, hdeeper, hQ⟩, hQ'⟩⟩
            · exact .inr ⟨he, f, List.mem_cons_of_mem _ hf, hE⟩
          · cases he
        · rcases hrecurse file List.mem_cons_self hdir s.2 _ hcall with ⟨_, _, hok, -⟩ | ⟨-, hE⟩
          · cases hok
          · exact .inr ⟨⟨e, rfl⟩, file, List.mem_cons_self, hdir, hE⟩
      · rw [if_neg hdir] at hdone
        rcases ih htail hdone with ⟨listings', h', rfl, hkeeps, hsub, hQ⟩ | ⟨he, f, hf, hE⟩
        · exact .inl ⟨listings', h', rfl, hkeeps, hsub,
            List.forall_mem_cons.mpr ⟨fun h => absurd h hdir, hQ⟩⟩
        · exact .inr ⟨he, f, List.mem_cons_of_mem _ hf, hE⟩

/-- Without -R there is no loop. -/
theorem listSubdirectories_done {recurse : Heap FileInfoListNode → FileInfo →
      Exec Fault (List Listing × Heap FileInfoListNode)} {Q : FileInfo → List Listing → Prop}
    {E : FileInfo → Prop}
    (hrecurse : ∀ file ∈ files, file.statInfo.isDirectory → ∀ h r, recurse h file = done r →
      MayEnd (Q file) (E file) h r)
    {s : List Listing × Heap FileInfoListNode}
    {r : Except Fault (List Listing × Heap FileInfoListNode)}
    (hdone : listSubdirectories options recurse files s = done r) :
    MayEnd (fun listings => s.1 ⊆ listings ∧ (options &&& DASH_R ≠ 0 → ∀ file ∈ files,
        file.statInfo.isDirectory → ∃ deeper ⊆ listings, Q file deeper))
      (options &&& DASH_R ≠ 0 ∧ ∃ file ∈ files, file.statInfo.isDirectory ∧ E file) s.2 r := by
  rw [listSubdirectories] at hdone
  split at hdone
  · next hR =>
    rcases subdirectories_done hrecurse hdone with
      ⟨listings, h', hr, hkeeps, hsub, hall⟩ | ⟨hr, hfail⟩
    · exact .inl ⟨listings, h', hr, hkeeps, hsub, fun _ => hall⟩
    · exact .inr ⟨hr, hR, hfail⟩
  · next hR =>
    exact .inl ⟨s.1, s.2, (done_inj hdone).symm, .refl _, List.Subset.refl _,
      fun h => absurd h hR⟩

/-- What has come to its end with a result: the calls of `path` are well-founded, and each of
their directories has been opened, printed and listed. -/
structure ListedAll (sys : System) (std : StdSort) (fs : FileSystem) (options : UInt32) (path : Bytes)
    (listings : List Listing) : Prop where
  acc : Acc (Calls fs options) path
  opened : AllOpen fs options path
  printable : AllPrintable sys fs options path
  listed : ∀ q, Visits fs options path q → HasListing sys std fs options listings q

/-- From the calls of a call to itself. -/
theorem listedAll_of_calls {listings : List Listing} (hopened : fs.readdir path ≠ none)
    (hprintable : DirectoryPrintable sys fs options path)
    (hself : HasListing sys std fs options listings path)
    (hcalls : ∀ c, Calls fs options c path →
      ∃ deeper ⊆ listings, ListedAll sys std fs options c deeper) :
    ListedAll sys std fs options path listings := by
  have hvisits : ∀ {P : Bytes → Prop}, P path →
      (∀ c, Calls fs options c path → ∀ q, Visits fs options c q → P q) →
      ∀ q, Visits fs options path q → P q := by
    intro P hP hbelow q hq
    rcases visits_iff.mp hq with rfl | ⟨c, hc, hq⟩
    · exact hP
    · exact hbelow c hc q hq
  refine ⟨.intro _ fun c hc => ?_, hvisits hopened fun c hc => ?_, hvisits hprintable fun c hc => ?_,
    hvisits hself fun c hc q hq => ?_⟩
  · exact (hcalls c hc).choose_spec.2.acc
  · exact (hcalls c hc).choose_spec.2.opened
  · exact (hcalls c hc).choose_spec.2.printable
  · obtain ⟨deeper, hsub, hall⟩ := hcalls c hc
    exact (hall.listed q hq).of_subset hsub

/-- **Whatever a call ends with**, with any fuel: with a result if its calls are well-founded and
all their directories are open and can be printed, and with a fault only if one of them is not
or cannot be. -/
theorem listDirectoryContents_done (fuel : Nat) :
    ∀ (heap : Heap FileInfoListNode) (file : FileInfo) (printHeaderRow : Bool)
      (r : Except Fault (List Listing × Heap FileInfoListNode)),
      listDirectoryContents sys std fs options fuel heap file printHeaderRow = done r →
      MayEnd (ListedAll sys std fs options file.filename)
        (¬ (AllOpen fs options file.filename ∧ AllPrintable sys fs options file.filename)) heap r := by
  induction fuel with
  | zero =>
      intro heap file printHeaderRow r hdone
      exact absurd hdone (noFuel_ne_done r)
  | succ fuel ih =>
      intro heap file printHeaderRow r hdone
      cases hopened : fs.readdir file.filename with
      | none =>
          rw [listDirectoryContents, hopened] at hdone
          exact .inr ⟨⟨_, (done_inj hdone).symm⟩, fun hgood => hgood.1 _ .refl hopened⟩
      | some entries =>
          obtain ⟨s, cells, -, hs, ⟨hbad, hr⟩ |
            ⟨printed, result, hprintable, hprinted, hloop, hresult⟩⟩ :=
              listDirectoryContents_cases hopened hdone
          · exact .inr ⟨hr, fun hgood => hbad (hgood.2 _ .refl)⟩
          have hcalls := @calls_iff std _ options _ _ hopened
          rcases listSubdirectories_done (fun f _ _ h r => ih h f true r) hloop with
            ⟨listings, h', rfl, hkeeps, hsub, hall⟩ | ⟨⟨e, rfl⟩, hR, f, hf, hdir, hfail⟩
          · obtain ⟨e, he, -⟩ | ⟨_, _, hok, hdone⟩ := hresult
            · cases he
            cases Except.ok.inj hok
            obtain ⟨h'', hfree, hfresh, -, hkept⟩ :=
              free_list (hs.collected.linked.of_keeps hkeeps)
            have hdone := (freeFileInfoList_mono s.list.head).bind_eq_done hfree hdone
            refine .inl ⟨listings, h'', (done_inj hdone).symm, keeps_of_free
              (hs.collected.keeps.trans hkeeps) hs.collected.newer hfresh hkept,
              listedAll_of_calls (by simp [hopened]) hprintable
                ⟨_, hsub (List.mem_singleton_self _), isOf_listingOf hopened hprinted _⟩ ?_⟩
            intro c hc
            obtain ⟨hR, f, hf, hdir, rfl⟩ := hcalls.mp hc
            exact hall hR f hf hdir
          · obtain ⟨e', -, hr⟩ | ⟨_, _, hok, -⟩ := hresult
            · refine .inr ⟨⟨e', hr⟩, fun hgood => hfail ?_⟩
              have hc := hcalls.mpr ⟨hR, f, hf, hdir, rfl⟩
              exact ⟨hgood.1.calls hc, hgood.2.calls hc⟩
            · cases hok

/-! ## The whole recursion -/

/-- The loop over the entries ends if the calls in it do. -/
theorem subdirectories_terminates {recurse : Nat → Heap FileInfoListNode → FileInfo →
      Exec Fault (List Listing × Heap FileInfoListNode)}
    (hrecurse : ∀ file ∈ files, file.statInfo.isDirectory → ∀ h,
      ∃ r, Ends (fun fuel => recurse fuel h file) r) (s : List Listing × Heap FileInfoListNode) :
    ∃ r, Ends (fun fuel => files.foldlM (listSubdirectory (recurse fuel)) s) r := by
  induction files generalizing s with
  | nil => exact ⟨_, Ends.const _⟩
  | cons file files ih =>
      have ih := ih fun f hf => hrecurse f (List.mem_cons_of_mem _ hf)
      simp only [List.foldlM_cons, listSubdirectory]
      by_cases hdir : file.statInfo.isDirectory
      · simp only [if_pos hdir, bind_assoc, pure_bind]
        obtain ⟨⟨e⟩ | ⟨deeper, heap⟩, hcall⟩ := hrecurse file List.mem_cons_self hdir s.2
        · exact ⟨_, hcall.bind_error⟩
        · obtain ⟨r, hrest⟩ := ih (s.1 ++ deeper, heap)
          exact ⟨r, hcall.bind hrest⟩
      · simp only [if_neg hdir, pure_bind]
        exact ih s

/-- **Well-founded calls end**, one way or the other. -/
theorem listDirectoryContents_terminates (hacc : Acc (Calls fs options) path) :
    ∀ (heap : Heap FileInfoListNode) (file : FileInfo) (printHeaderRow : Bool), file.filename = path →
      ∃ r, Ends (fun fuel =>
        listDirectoryContents sys std fs options fuel heap file printHeaderRow) r := by
  induction hacc with
  | intro path _ ih =>
      rintro heap file printHeaderRow rfl
      cases hopened : fs.readdir file.filename with
      | none =>
          exact ⟨_, Ends.succ (fun n => by rw [listDirectoryContents, hopened]) (Ends.const _)⟩
      | some entries =>
          by_cases hprintable : DirectoryPrintable sys fs options file.filename
          · obtain ⟨s, printed, hcall⟩ :=
              @listDirectoryContents_of_opened sys std _ _ heap _ _ printHeaderRow hopened hprintable
            have hloop : ∃ r, Ends (fun fuel => listSubdirectories options
                (fun heap file => listDirectoryContents sys std fs options fuel heap file true)
                (listedFiles std fs options file.filename entries)
                ([listingOf std fs options file.filename entries printHeaderRow printed],
                  s.list.heap)) r := by
              unfold listSubdirectories
              split
              · next hR =>
                refine subdirectories_terminates (fun f hf hdir h => ?_) _
                exact ih f.filename ((calls_iff hopened).mpr ⟨hR, f, hf, hdir, rfl⟩) h f true rfl
              · exact ⟨_, Ends.const _⟩
            obtain ⟨⟨e⟩ | ⟨listings, h'⟩, hloop⟩ := hloop
            · exact ⟨_, (hcall _ hloop).1 e rfl⟩
            · obtain ⟨fuel, hdone⟩ := id hloop
              rcases listSubdirectories_done (fun f _ _ h r => listDirectoryContents_done fuel h f true r)
                (hdone fuel (Nat.le_refl fuel)) with ⟨_, _, hok, hkeeps, -⟩ | ⟨⟨e, he⟩, -⟩
              · cases Except.ok.inj hok
                obtain ⟨heap', hends, -⟩ := (hcall _ hloop).2 _ _ rfl hkeeps
                exact ⟨_, hends⟩
              · cases he
          · obtain ⟨e, hends⟩ := listDirectoryContents_of_unprintable printHeaderRow hopened hprintable
            exact ⟨_, hends⟩

/-- **Where it ends well**, and with what. -/
theorem listDirectoryContents_ends (hacc : Acc (Calls fs options) path)
    (hopen : AllOpen fs options path) (hprintable : AllPrintable sys fs options path)
    (heap : Heap FileInfoListNode) (file : FileInfo) (printHeaderRow : Bool)
    (hfile : file.filename = path) :
    ∃ listings heap', Ends (fun fuel =>
        listDirectoryContents sys std fs options fuel heap file printHeaderRow)
          (.ok (listings, heap')) ∧
      ∀ q, Visits fs options path q → HasListing sys std fs options listings q := by
  subst hfile
  obtain ⟨r, hends⟩ := listDirectoryContents_terminates hacc heap file printHeaderRow rfl
  obtain ⟨fuel, hdone⟩ := id hends
  rcases listDirectoryContents_done fuel heap file printHeaderRow r (hdone fuel (Nat.le_refl fuel))
    with ⟨listings, heap', rfl, -, hall⟩ | ⟨-, hfail⟩
  · exact ⟨listings, heap', hends, hall.listed⟩
  · exact absurd ⟨hopen, hprintable⟩ hfail

theorem ends_iff (heap : Heap FileInfoListNode) (file : FileInfo) (printHeaderRow : Bool) :
    (∃ listings heap', Ends (fun fuel =>
      listDirectoryContents sys std fs options fuel heap file printHeaderRow)
        (.ok (listings, heap'))) ↔
      Acc (Calls fs options) file.filename ∧ AllOpen fs options file.filename ∧
        AllPrintable sys fs options file.filename := by
  constructor
  · rintro ⟨listings, heap', fuel, hdone⟩
    rcases listDirectoryContents_done fuel heap file printHeaderRow _
      (hdone fuel (Nat.le_refl fuel)) with ⟨_, _, -, -, hall⟩ | ⟨⟨e, he⟩, -⟩
    · exact ⟨hall.acc, hall.opened, hall.printable⟩
    · cases he
  · rintro ⟨hacc, hopen, hprintable⟩
    obtain ⟨listings, heap', hends, -⟩ :=
      listDirectoryContents_ends hacc hopen hprintable heap file printHeaderRow rfl
    exact ⟨listings, heap', hends⟩

end

end Nyctomek.Ls
