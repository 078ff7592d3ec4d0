/-
# Net changes keep the line total

A change of readable files grows its file by the lines that the new side has more than the old
one (`Change.growth`), whatever its diff is. Along a chain these growths telescope, since each
change leaves the version that the chain has led to, and one version has one content: a chain
grows its file by what its last side has more than its first one. So every change adds its own
growth to the total of the chains, whichever chain it continues (`Chain.total_add`). A net change
grows its file as its chain does, and a chain that is dropped leads from nothing to nothing.

So the line deltas of the net changes have the sum of those of the changes, in any interleaving
(`Change.merge_total`).

Key definitions: `Change.growth`, `Chain.growth`, `Chain.Within`, `Change.Measurable`.
Key theorems: `Chain.total_gather`, `Change.total_net`, `Change.merge_total`.
-/
import Lineage.Proofs.Archive.Deeds
import Lineage.Proofs.Change.Netting
import Lineage.Proofs.Diff.Replaying

namespace Lineage

open Text (plainLines)

/-! ### Totals -/

/-- The sum of what counts for each element of a list. -/
def total {α : Type} (count : α → Int) : List α → Int
  | [] => 0
  | x :: xs => count x + total count xs

section Total

variable {α β : Type} (count : α → Int)

theorem total_append : ∀ xs ys : List α,
    total count (xs ++ ys) = total count xs + total count ys
  | [], ys => (Int.zero_add _).symm
  | x :: xs, ys => by rw [List.cons_append, total, total, total_append xs ys, Int.add_assoc]

/-- Numbered elements that are left out or replaced keep their total, if what each of them
leaves counts as much as it does. -/
theorem total_filterMap_zipIdx {size : β → Int} {f : β → Nat → Option α} :
    ∀ {xs : List β} {n : Nat}, (∀ x ∈ xs, ∀ k, total count (f x k).toList = size x) →
      total count ((xs.zipIdx n).filterMap fun (x, k) => f x k) = total size xs
  | [], _, _ => rfl
  | x :: xs, n, each => by
    have rest := total_filterMap_zipIdx (n := n + 1) fun y hy => each y (List.mem_cons_of_mem x hy)
    rw [List.zipIdx_cons, Chain.filterMap_cons_eq, total_append, rest,
      each x List.mem_cons_self, total]

end Total

/-! ### Growth -/

section Growth

variable (content : Version → List Char)

/-- What a side of a change holds; a missing file holds nothing. -/
def Change.sideContent : Option File → List Char
  | none => []
  | some f => content f.version

/-- The number of lines of a side of a change. -/
def Change.sideSize (f : Option File) : Int :=
  (plainLines (sideContent content f)).length

/-- How many lines the new side of a change has more than the old one. -/
def Change.growth (c : Change) : Int :=
  sideSize content c.new - sideSize content c.old

/-- How many lines the file that a chain has led to has more than the one it began with. -/
def Chain.growth (chain : Chain) : Int :=
  Change.sideSize content chain.last - Change.sideSize content chain.first.old

variable {content}

/-- A change that continues a chain leaves as many lines as the chain has led to. -/
theorem Chain.ContinuedBy.sideSize_eq {chain : Chain} {c : Change} (h : chain.ContinuedBy c) :
    Change.sideSize content chain.last = Change.sideSize content c.old := by
  unfold ContinuedBy at h
  split at h
  next last old =>
    rw [last, old, Change.sideSize, Change.sideSize, Change.sideContent, Change.sideContent, h]
  next => exact h.elim

/-- A change adds its growth to the total, whatever chain it is put in. -/
theorem Chain.total_add (c : Change) (chains : List Chain) :
    total (growth content) (add c chains) = total (growth content) chains + c.growth content := by
  rcases add_cases c chains with ⟨-, added⟩ | ⟨before, chain, behind, rfl, continued, added⟩
  · rw [added, total_append, total, total, Int.add_zero]
    rfl
  · have left : Change.sideSize content chain.last = Change.sideSize content c.old :=
      continued.sideSize_eq
    rw [added, total_append, total_append, total, total]
    simp only [growth, Change.growth]
    omega

/-- The chains of changes have the total of the changes. -/
theorem Chain.total_gather : ∀ (changes : List Change) (chains : List Chain),
    total (growth content) (changes.foldl (fun chains c => add c chains) chains) =
      total (growth content) chains + total (Change.growth content) changes
  | [], chains => (Int.add_zero _).symm
  | c :: cs, chains =>
    calc total (growth content) (cs.foldl (fun chains c => add c chains) (add c chains))
        = total (growth content) (add c chains) + total (Change.growth content) cs :=
          total_gather cs (add c chains)
      _ = total (growth content) chains + c.growth content + total (Change.growth content) cs := by
          rw [total_add]
      _ = total (growth content) chains + total (Change.growth content) (c :: cs) :=
          Int.add_assoc _ _ _

end Growth

/-! ### Chains of changes -/

namespace Chain

/-- A chain of changes of a list: it begins with one of them, and has led to the new file of one
of them, that of the first one if there is no other. -/
structure Within (changes : List Change) (chain : Chain) : Prop where
  first : chain.first ∈ changes
  last : ∃ c ∈ changes, chain.last = c.new
  single : chain.length = 1 → chain.last = chain.first.new
  positive : 1 ≤ chain.length

variable {changes : List Change} {c : Change} {chains : List Chain}

theorem Within.begins (hc : c ∈ changes) : Within changes ⟨c, c.new, 1⟩ :=
  ⟨hc, ⟨c, hc, rfl⟩, fun _ => rfl, Nat.le_refl 1⟩

theorem Within.continues {chain : Chain} (h : chain.Within changes) (hc : c ∈ changes) :
    Within changes { chain with last := c.new, length := chain.length + 1 } := by
  refine ⟨h.first, ⟨c, hc, rfl⟩, fun one => ?_, Nat.le_add_left 1 _⟩
  have two : chain.length + 1 = 1 := one
  have positive := h.positive
  omega

theorem within_add (h : ∀ chain ∈ chains, chain.Within changes) (hc : c ∈ changes) :
    ∀ chain ∈ add c chains, chain.Within changes := by
  intro chain' hm
  rcases add_cases c chains with ⟨-, added⟩ | ⟨before, chain, behind, rfl, -, added⟩
  · rw [added] at hm
    rcases List.mem_append.mp hm with hm | hm
    · exact h chain' hm
    · exact List.mem_singleton.mp hm ▸ .begins hc
  · rw [added] at hm
    rcases List.mem_append.mp hm with hm | hm
    · exact h chain' (List.mem_append_left _ hm)
    · rcases List.mem_cons.mp hm with rfl | hm
      · exact (h chain (by simp)).continues hc
      · exact h chain' (by simp [hm])

theorem length_add_le (c : Change) (chains : List Chain) :
    (add c chains).length ≤ chains.length + 1 := by
  rcases add_cases c chains with ⟨-, added⟩ | ⟨before, chain, behind, rfl, -, added⟩
  · rw [added, List.length_append, List.length_singleton]
  · rw [added]
    simp only [List.length_append, List.length_cons]
    omega

theorem within_gather : ∀ (cs : List Change) {chains : List Chain}, (∀ c ∈ cs, c ∈ changes) →
    (∀ chain ∈ chains, chain.Within changes) →
      ∀ chain ∈ cs.foldl (fun chains c => add c chains) chains, chain.Within changes
  | [], _, _, h => h
  | c :: cs, _, known, h =>
    within_gather cs (fun d hd => known d (List.mem_cons_of_mem c hd))
      (within_add h (known c List.mem_cons_self))

theorem Within.of_mem_gather {chain : Chain} (h : chain ∈ gather changes) :
    chain.Within changes :=
  within_gather changes (fun _ hc => hc) (fun _ hc => by cases hc) chain h

theorem length_gather_le : ∀ (cs : List Change) (chains : List Chain),
    (cs.foldl (fun chains c => add c chains) chains).length ≤ chains.length + cs.length
  | [], _ => Nat.le_refl _
  | c :: cs, chains => by
    have one := length_add_le c chains
    have rest := length_gather_le cs (add c chains)
    rw [List.foldl_cons, List.length_cons]
    omega

/-- The net change of a chain has the growth of the chain, also if there is none. -/
theorem total_net {content : Version → List Char} {chain : Chain} (h : chain.Within changes)
    (handle : Nat) :
    total (Change.growth content) (chain.net handle).toList = chain.growth content := by
  unfold net
  by_cases one : chain.length = 1
  · rw [if_pos one, growth, h.single one]
    exact Int.add_zero _
  · rw [if_neg one]
    by_cases gone : chain.first.old = none ∧ chain.last = none
    · rw [if_pos gone, growth, gone.1, gone.2]
      rfl
    · rw [if_neg gone]
      exact Int.add_zero _

end Chain

/-! ### Net changes -/

namespace Change

variable {content : Version → List Char} {changes : List Change} {c : Change}

/-- The net changes have the total of the changes. -/
theorem total_net (content : Version → List Char) (handle : Nat) (changes : List Change) :
    total (growth content) (net handle changes) = total (growth content) changes := by
  calc total (growth content) (net handle changes)
      = total (Chain.growth content) (Chain.gather changes) :=
        total_filterMap_zipIdx (growth content) fun _ hc k => Chain.total_net (.of_mem_gather hc) k
    _ = 0 + total (growth content) changes := Chain.total_gather changes []
    _ = total (growth content) changes := Int.zero_add _

/-- With their net changes, changes are only joined by new ones between the ends of chains. -/
theorem mem_append_net {handle : Nat} (h : c ∈ changes ++ net handle changes) :
    c ∈ changes ∨ ∃ k chain, (Chain.gather changes)[k]? = some chain ∧
      chain.Within changes ∧ (chain.first.old ≠ none ∨ chain.last ≠ none) ∧
      c = ⟨handle + k, chain.first.old, chain.last, .compared⟩ := by
  rcases List.mem_append.mp h with known | new
  · exact .inl known
  obtain ⟨⟨chain, n⟩, place, hc⟩ := List.mem_filterMap.mp new
  obtain ⟨le, found⟩ := List.mk_mem_zipIdx_iff_le_and_getElem?_sub.mp place
  have within : chain.Within changes := .of_mem_gather (List.mem_of_getElem? found)
  dsimp only at hc
  unfold Chain.net at hc
  split at hc
  · exact .inl (Option.some.inj hc ▸ within.first)
  · split at hc
    · cases hc
    next kept =>
      refine .inr ⟨n - handle, chain, found, within, not_and_or.mp kept, ?_⟩
      rw [Nat.add_sub_cancel' le]
      exact (Option.some.inj hc).symm

theorem files_append_net {handle : Nat} {f : File}
    (h : f ∈ (changes ++ net handle changes).flatMap files) : f ∈ changes.flatMap files := by
  obtain ⟨c, hc, hf⟩ := List.mem_flatMap.mp h
  rcases mem_append_net hc with known | ⟨k, chain, -, within, -, rfl⟩
  · exact List.mem_flatMap.mpr ⟨c, known, hf⟩
  · rcases mem_files.mp hf with old | new
    · exact List.mem_flatMap.mpr ⟨chain.first, within.first, mem_files.mpr (.inl old)⟩
    · obtain ⟨d, hd, last⟩ := within.last
      exact List.mem_flatMap.mpr ⟨d, hd, mem_files.mpr (.inr (last.symm.trans new))⟩

/-- To merge changes gives out handles, which no text depends on. -/
theorem answer_text_after_merge (f : File) (changes : List Change) (a : Archive) :
    f.text.answer ((merge changes).after a) = f.text.answer a :=
  File.answer_text_congr rfl fun _ _ => rfl

/-- The line deltas of changes, added up. -/
def totalDelta : List Change → Work Int
  | [] => pure 0
  | c :: cs => do
    let first ← c.delta
    return first + (← totalDelta cs)

/-- Changes of a session that compare their files, all of which can be read: files of one version
have one content, handles tell files and changes apart and have been given out, and any diff that
is kept was computed by its change. -/
structure Measurable (content : Version → List Char) (a : Archive) (changes : List Change) :
    Prop where
  compared : ∀ c ∈ changes, c.origin = .compared
  present : ∀ c ∈ changes, c.old ≠ none ∨ c.new ≠ none
  read : ∀ f ∈ changes.flatMap files, f.text.answer a = .ok (content f.version)
  oneFile : ∀ f ∈ changes.flatMap files, ∀ g ∈ changes.flatMap files, f.OneHandle g
  oneChange : ∀ c ∈ changes, ∀ d ∈ changes, c.handle = d.handle → c = d
  sourced : ∀ c ∈ changes, c.Sourced a
  issued : ∀ c ∈ changes, c.handle < a.nextHandle
  unused : ∀ handle, a.nextHandle ≤ handle → a.diffs handle = none

namespace Measurable

variable {a : Archive}

/-- The scope of a session about the changes. -/
def scope (h : Measurable content a changes) : Scope :=
  .ofChanges changes h.oneFile h.oneChange

theorem answer_sideText {f : Option File} (h : Measurable content a changes)
    (known : ∀ g, f = some g → g ∈ changes.flatMap files) :
    (sideText f).answer a = .ok (sideContent content f) := by
  cases f with
  | none => rfl
  | some g => exact h.read g (known g rfl)

theorem consults_delta (h : Measurable content a changes) (hc : c ∈ changes) :
    c.delta.Consults h.scope a :=
  (consults_diff hc).bind fun _ _ => (Work.Consults.modular h.scope a).pure _

theorem answers_delta (h : Measurable content a changes) (hc : c ∈ changes) :
    c.delta.Answers h.scope a (c.growth content) := by
  have known : ∀ f ∈ c.files, f ∈ changes.flatMap files :=
    fun f hf => List.mem_flatMap.mpr ⟨c, hc, hf⟩
  have inOld : ∀ f, c.old = some f → f ∈ changes.flatMap files :=
    fun f hf => known f (mem_files.mpr (.inl hf))
  have inNew : ∀ f, c.new = some f → f ∈ changes.flatMap files :=
    fun f hf => known f (mem_files.mpr (.inr hf))
  obtain ⟨computed, -⟩ := diff_of_texts (h.compared c hc) (h.present c hc)
    (fun f hf g hg => h.oneFile f (inOld f hf) g (inNew g hg)) (h.sourced c hc)
    (h.answer_sideText inOld) (h.answer_sideText inNew)
  apply (h.consults_delta hc).answers
  unfold delta
  rw [Work.answer_bind_ok computed, Work.answer_pure, (EditScript.lineDiff _ _).balance]
  rfl

theorem answers_totalDelta (h : Measurable content a changes) : ∀ {cs : List Change},
    (∀ c ∈ cs, c ∈ changes) → (totalDelta cs).Consults h.scope a ∧
      (totalDelta cs).Answers h.scope a (total (growth content) cs)
  | [], _ => ⟨(Work.Consults.modular h.scope a).pure 0, .pure 0⟩
  | c :: cs, known => by
    have modular := Work.Consults.modular h.scope a
    obtain ⟨consults, answers⟩ :=
      h.answers_totalDelta fun d hd => known d (List.mem_cons_of_mem c hd)
    have here := known c List.mem_cons_self
    have first := h.consults_delta here
    exact ⟨first.bind fun _ _ => consults.bind fun _ _ => modular.pure _,
      first.bind_answers (h.answers_delta here) (consults.bind_answers answers (.pure _))⟩

theorem net_handles (h : Measurable content a changes) {d : Change}
    (hc : c ∈ changes ++ net a.nextHandle changes) (hd : d ∈ changes ++ net a.nextHandle changes)
    (same : c.handle = d.handle) : c = d := by
  rcases mem_append_net hc with known | ⟨k, chain, found, -, -, rfl⟩ <;>
    rcases mem_append_net hd with known' | ⟨k', chain', found', -, -, rfl⟩
  · exact h.oneChange c known d known' same
  · have issued := h.issued c known
    dsimp only at same
    omega
  · have issued := h.issued d known'
    dsimp only at same
    omega
  · obtain rfl : k = k' := Nat.add_left_cancel same
    rw [Option.some.inj (found.symm.trans found')]

/-- After a merge, the changes and their net changes are together as the changes were before. -/
theorem merge (h : Measurable content a changes) :
    Measurable content ((merge changes).after a) (changes ++ net a.nextHandle changes) where
  compared c hc := by
    rcases mem_append_net hc with known | ⟨_, _, -, -, -, rfl⟩
    · exact h.compared c known
    · rfl
  present c hc := by
    rcases mem_append_net hc with known | ⟨_, _, -, -, kept, rfl⟩
    · exact h.present c known
    · exact kept
  read f hf := by rw [answer_text_after_merge, h.read f (files_append_net hf)]
  oneFile f hf g hg := h.oneFile f (files_append_net hf) g (files_append_net hg)
  oneChange _ hc _ hd := h.net_handles hc hd
  sourced c hc := by
    have within : a.Within ((Change.merge changes).after a) :=
      ⟨fun _ _ hk => hk, fun _ _ hk => hk⟩
    rcases mem_append_net hc with known | ⟨k, _, -, -, -, rfl⟩
    · exact (h.sourced c known).mono within rfl
    · exact sourced_of_unkept (h.unused _ (Nat.le_add_right a.nextHandle k))
  issued c hc := by
    have most := Chain.length_gather_le changes []
    show c.handle < a.nextHandle + changes.length
    rcases mem_append_net hc with known | ⟨k, _, found, -, -, rfl⟩
    · exact Nat.lt_of_lt_of_le (h.issued c known) (Nat.le_add_right _ _)
    · have place := (List.getElem?_eq_some_iff.mp found).1
      unfold Chain.gather at place
      simp only [List.length_nil] at most
      dsimp only
      omega
  unused handle le := h.unused handle (Nat.le_trans (Nat.le_add_right _ _) le)

end Measurable

/-- Merging changes keeps the sum of their line deltas, in whatever order the changes of
different files come and whatever chains are dropped. The sum of the changes is answered, and
throughout a session that begins with the merge the sum of the net changes is the same. -/
theorem merge_total {a : Archive} (h : Measurable content a changes) :
    ∃ nets n o, (merge changes).answer a = .ok nets ∧ (totalDelta changes).answer a = .ok n ∧
      (∀ c ∈ changes ++ nets, o.change c) ∧
      (totalDelta changes).Answers o ((merge changes).after a) n ∧
      (totalDelta nets).Answers o ((merge changes).after a) n := by
  have merged := h.merge
  obtain ⟨-, before⟩ := h.answers_totalDelta fun c hc => hc
  obtain ⟨-, still⟩ := merged.answers_totalDelta fun c hc => List.mem_append_left _ hc
  obtain ⟨-, after⟩ := merged.answers_totalDelta fun c hc => List.mem_append_right changes hc
  rw [total_net] at after
  exact ⟨net a.nextHandle changes, total (growth content) changes, merged.scope, rfl,
    before.here, fun c hc => hc, still, after⟩

/-- A file is modified and relocated while another one is added and removed again: one net
change, by which one line goes. -/
theorem merge_total_interleaved :
    let content (v : Version) : List Char :=
      if v.revision = "r1" then ['k', '\n', 'm'] else
        if v.path = "b" then ['k'] else ['k', '\n', '\n', 'n']
    let file (path revision : String) : File :=
      ⟨⟨path, revision⟩, .memory (content ⟨path, revision⟩)⟩
    let changes : List Change :=
      [⟨0, some (file "a" "r1"), some (file "a" "r2"), .compared⟩,
        ⟨1, none, some (file "t" "r2"), .compared⟩,
        ⟨2, some (file "a" "r2"), some (file "b" "r3"), .compared⟩,
        ⟨3, some (file "t" "r2"), none, .compared⟩]
    let a : Archive := { Archive.empty with nextHandle := 4 }
    Measurable content a changes ∧ ∃ nets o, (merge changes).answer a = .ok nets ∧
      nets.length = 1 ∧ (totalDelta nets).Answers o ((merge changes).after a) (-1) := by
  intro content file changes a
  have inMemory : ∀ f ∈ changes.flatMap files,
      f.handle? = none ∧ f.text.answer a = .ok (content f.version) := by
    have listed : changes.flatMap files =
        [("a", "r1"), ("a", "r2"), ("t", "r2"), ("a", "r2"), ("b", "r3"), ("t", "r2")].map
          fun v => file v.1 v.2 := rfl
    rw [listed, List.forall_mem_map]
    exact fun _ _ => ⟨rfl, rfl⟩
  have measurable : Measurable content a changes := {
    compared := by decide
    present := by simp [changes]
    read := fun f hf => (inMemory f hf).2
    oneFile := fun f hf _ _ _ some => absurd (inMemory f hf).1 some
    oneChange := fun _ hc _ hd same =>
      List.inj_on_of_nodup_map (f := Change.handle) (by decide) hc hd same
    sourced := fun _ _ => sourced_of_unkept rfl
    issued := by decide
    unused := fun _ _ => rfl }
  obtain ⟨nets, n, o, merged, sum, -, -, after⟩ := merge_total measurable
  have lost : total (growth content) changes = -1 := by decide
  have counted := (measurable.answers_totalDelta fun _ hc => hc).2.here
  rw [lost] at counted
  obtain rfl := Except.ok.inj (sum.symm.trans counted)
  exact ⟨measurable, nets, o, merged, by rw [← Except.ok.inj merged]; rfl, after⟩

end Change
end Lineage
