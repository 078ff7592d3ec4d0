/-
# Net changes have the effect of the changes

Changes made one after the other take files away and bring others. While they are gathered
into chains, every file that is there at the moment is either an old one that no chain began
with, or the file that exactly one chain has led to so far (`Change.Balanced`). So the net
changes take away different files, all of them old ones, bring different files, and leave
behind what the changes left behind (`Change.merge_balanced`).

Key definitions: `Change.applied`, `Change.History`, `Change.Balanced`, `Chain.Accounts`.
Key theorems: `Chain.Accounts.add`, `Chain.Accounts.gather`, `Change.merge_balanced`.
-/
import Lineage.Proofs.Archive.Reading
import Lineage.Step
import Mathlib.Data.Finset.Basic
import Mathlib.Data.Finset.Dedup
import Mathlib.Data.List.Nodup

namespace Lineage

/-! ### Histories -/

namespace Change

/-- The version that a change takes away. -/
def oldVersion (c : Change) : Option Version :=
  c.old.map File.version

/-- The version that a change brings. -/
def newVersion (c : Change) : Option Version :=
  c.new.map File.version

/-- The versions that are there once changes have taken away theirs and brought theirs. -/
def applied (live : Finset Version) (changes : List Change) : Finset Version :=
  (live \ (changes.filterMap oldVersion).toFinset) ∪ (changes.filterMap newVersion).toFinset

/-- Changes are made one after the other: what a change takes away is there, and what it
brings is not there any more. -/
inductive History : Finset Version → List Change → Finset Version → Prop
  | nil (live : Finset Version) : History live [] live
  | cons {live live' : Finset Version} {c : Change} {cs : List Change}
    (taken : ∀ v, c.oldVersion = some v → v ∈ live)
    (free : ∀ v, c.newVersion = some v → v ∈ live → c.oldVersion = some v)
    (rest : History (applied live [c]) cs live') : History live (c :: cs) live'

theorem mem_applied {live : Finset Version} {changes : List Change} {v : Version} :
    v ∈ applied live changes ↔ (v ∈ live ∧ v ∉ changes.filterMap oldVersion) ∨
      v ∈ changes.filterMap newVersion := by
  simp only [applied, Finset.mem_union, Finset.mem_sdiff, List.mem_toFinset]

theorem mem_applied_singleton {live : Finset Version} {c : Change} {v : Version} :
    v ∈ applied live [c] ↔ (v ∈ live ∧ c.oldVersion ≠ some v) ∨ c.newVersion = some v := by
  simp only [mem_applied, List.mem_filterMap, List.mem_singleton, exists_eq_left, ne_eq]

/-! ### Balances -/

/-- What has been taken away and brought adds up: different old versions were taken away,
different versions were brought, and there is now what was there and not taken away, and what
was brought. -/
structure Balanced (start live : Finset Version) (olds news : List Version) : Prop where
  olds_once : olds.Nodup
  olds_there : ∀ v ∈ olds, v ∈ start
  news_once : news.Nodup
  /-- An old version is not brought again unless it was taken away. -/
  news_apart : ∀ v ∈ news, v ∈ start → v ∈ olds
  live : ∀ v, v ∈ live ↔ (v ∈ start ∧ v ∉ olds) ∨ v ∈ news

namespace Balanced

variable {start live live' : Finset Version} {olds news : List Version} {c : Change}

theorem nil (start : Finset Version) : Balanced start start [] [] where
  olds_once := .nil
  olds_there v hv := by cases hv
  news_once := .nil
  news_apart v hv := by cases hv
  live v := by simp

theorem add_old (h : Balanced start live olds news)
    (taken : ∀ v, c.oldVersion = some v → v ∈ live)
    (free : ∀ v, c.newVersion = some v → v ∈ live → c.oldVersion = some v)
    (untouched : ∀ v, c.oldVersion = some v → v ∉ news) :
    Balanced start (applied live [c]) (olds ++ c.oldVersion.toList)
      (news ++ c.newVersion.toList) := by
  have old : ∀ v, c.oldVersion = some v → v ∈ start ∧ v ∉ olds :=
    fun v hv => ((h.live v).mp (taken v hv)).resolve_right (untouched v hv)
  refine ⟨?_, fun v hv => ?_, ?_, fun v hv there => ?_, fun v => ?_⟩
  · refine List.nodup_append.mpr ⟨h.olds_once, Option.toList_nodup _, ?_⟩
    rintro v hv w hw rfl
    exact (old v (Option.mem_toList.mp hw)).2 hv
  · rcases List.mem_append.mp hv with hv | hv
    · exact h.olds_there v hv
    · exact (old v (Option.mem_toList.mp hv)).1
  · refine List.nodup_append.mpr ⟨h.news_once, Option.toList_nodup _, ?_⟩
    rintro v hv w hw rfl
    exact untouched v (free v (Option.mem_toList.mp hw) ((h.live v).mpr (.inr hv))) hv
  · rw [List.mem_append, Option.mem_toList]
    rcases List.mem_append.mp hv with hv | hv
    · exact .inl (h.news_apart v hv there)
    · by_cases known : v ∈ olds
      · exact .inl known
      · exact .inr (free v (Option.mem_toList.mp hv) ((h.live v).mpr (.inl ⟨there, known⟩)))
  · have := untouched v
    simp only [mem_applied_singleton, h.live, List.mem_append, Option.mem_toList]
    tauto

theorem replace_new {v : Version} {before behind : List Version}
    (h : Balanced start live olds (before ++ v :: behind)) (old : c.oldVersion = some v)
    (free : ∀ w, c.newVersion = some w → w ∈ live → c.oldVersion = some w) :
    Balanced start (applied live [c]) olds (before ++ (c.newVersion.toList ++ behind)) := by
  have once := List.nodup_middle.mp h.news_once
  obtain ⟨gone, others_once⟩ := List.nodup_cons.mp once
  -- what is brought is not among the other versions, nor among the old ones that are left
  have fresh : ∀ w, c.newVersion = some w → w ∉ before ++ behind ∧ (w ∈ start → w ∈ olds) := by
    intro w hw
    have back : w ∈ live → w = v := fun there =>
      Option.some.inj ((free w hw there).symm.trans old)
    refine ⟨fun hm => ?_, fun there => ?_⟩
    · have there : w ∈ live := (h.live w).mpr (.inr (by simp at hm ⊢; tauto))
      exact gone (back there ▸ hm)
    · by_contra kept
      have same := back ((h.live w).mpr (.inl ⟨there, kept⟩))
      exact kept (h.news_apart w (by simp [same]) there)
  have perm : (before ++ (c.newVersion.toList ++ behind)).Perm
      (c.newVersion.toList ++ (before ++ behind)) := by
    rw [← List.append_assoc, ← List.append_assoc]
    exact List.perm_append_comm.append_right behind
  refine ⟨h.olds_once, h.olds_there, ?_, fun w hw there => ?_, fun w => ?_⟩
  · refine perm.nodup_iff.mpr (List.nodup_append.mpr ⟨Option.toList_nodup _, others_once, ?_⟩)
    rintro w hw w' hw' rfl
    exact (fresh w (Option.mem_toList.mp hw)).1 hw'
  · rcases List.mem_append.mp (perm.subset hw) with hw | hw
    · exact (fresh w (Option.mem_toList.mp hw)).2 there
    · exact h.news_apart w (by simp at hw ⊢; tauto) there
  · have apart := h.news_apart v (by simp)
    have live := h.live w
    simp only [List.mem_append, List.mem_cons] at live gone
    simp only [mem_applied_singleton, live, old, perm.mem_iff, List.mem_append,
      Option.mem_toList, ne_eq, Option.some.injEq]
    by_cases same : w = v
    · subst same
      have not_kept : ¬ (w ∈ start ∧ w ∉ olds) := fun kept => kept.2 (apart kept.1)
      simp only [gone, not_kept, not_true_eq_false, and_false, false_or, or_false]
    · have still : ¬ v = w := fun eq => same eq.symm
      simp only [same, still, not_false_eq_true, and_true, false_or]
      exact or_assoc.trans (or_congr_right or_comm)

end Balanced
end Change

/-! ### Chains -/

namespace Chain

/-- The version that a chain takes away. -/
def oldVersion (chain : Chain) : Option Version :=
  chain.first.oldVersion

/-- The version that a chain has led to. -/
def newVersion (chain : Chain) : Option Version :=
  chain.last.map File.version

theorem filterMap_cons_eq {α β : Type} (f : α → Option β) (x : α) (xs : List α) :
    (x :: xs).filterMap f = (f x).toList ++ xs.filterMap f := by
  rw [List.filterMap_eq_flatMap_toList, List.flatMap_cons, ← List.filterMap_eq_flatMap_toList]

theorem continuedBy_iff {chain : Chain} {c : Change} :
    chain.ContinuedBy c ↔ ∃ v, chain.newVersion = some v ∧ c.oldVersion = some v := by
  unfold ContinuedBy newVersion Change.oldVersion
  cases chain.last <;> cases c.old <;> simp [eq_comm]

/-- A change continues one of the chains, or begins a chain because it continues none. -/
theorem add_cases (c : Change) : ∀ chains : List Chain,
    ((∀ chain ∈ chains, ¬ chain.ContinuedBy c) ∧ add c chains = chains ++ [⟨c, c.new, 1⟩]) ∨
      ∃ before chain behind, chains = before ++ chain :: behind ∧ chain.ContinuedBy c ∧
        add c chains =
          before ++ { chain with last := c.new, length := chain.length + 1 } :: behind
  | [] => .inl ⟨by simp, rfl⟩
  | chain :: chains => by
    unfold add
    by_cases continued : chain.ContinuedBy c
    · rw [if_pos continued]
      exact .inr ⟨[], chain, chains, rfl, continued, rfl⟩
    · rw [if_neg continued]
      rcases add_cases c chains with ⟨none, added⟩ | ⟨before, found, behind, rfl, here, added⟩
      · refine .inl ⟨fun chain' h => ?_, by rw [added]; rfl⟩
        rcases List.mem_cons.mp h with rfl | h
        · exact continued
        · exact none chain' h
      · exact .inr ⟨chain :: before, found, behind, rfl, here, by rw [added]; rfl⟩

/-- Chains account for what has become of the versions that were there, and a chain of one
change has led to the new file of that change. -/
structure Accounts (start live : Finset Version) (chains : List Chain) : Prop where
  balanced : Change.Balanced start live (chains.filterMap oldVersion) (chains.filterMap newVersion)
  single : ∀ chain ∈ chains, chain.length = 1 → chain.last = chain.first.new
  positive : ∀ chain ∈ chains, 1 ≤ chain.length

namespace Accounts

variable {start live : Finset Version} {chains : List Chain} {c : Change}

theorem nil (start : Finset Version) : Accounts start start [] where
  balanced := .nil start
  single chain h := by cases h
  positive chain h := by cases h

theorem begins (h : Accounts start live chains)
    (none : ∀ chain ∈ chains, ¬ chain.ContinuedBy c)
    (taken : ∀ v, c.oldVersion = some v → v ∈ live)
    (free : ∀ v, c.newVersion = some v → v ∈ live → c.oldVersion = some v) :
    Accounts start (Change.applied live [c]) (chains ++ [⟨c, c.new, 1⟩]) := by
  let own : Chain := ⟨c, c.new, 1⟩
  have untouched : ∀ v, c.oldVersion = some v → v ∉ chains.filterMap newVersion := by
    intro v hv hn
    obtain ⟨chain, hchain, led⟩ := List.mem_filterMap.mp hn
    exact none chain hchain (continuedBy_iff.mpr ⟨v, led, hv⟩)
  refine ⟨?_, fun chain hc => ?_, fun chain hc => ?_⟩
  · rw [List.filterMap_append, List.filterMap_append]
    have olds : [own].filterMap oldVersion = c.oldVersion.toList := by
      rw [filterMap_cons_eq, List.filterMap_nil, List.append_nil]
      rfl
    have news : [own].filterMap newVersion = c.newVersion.toList := by
      rw [filterMap_cons_eq, List.filterMap_nil, List.append_nil]
      rfl
    rw [olds, news]
    exact h.balanced.add_old taken free untouched
  · rcases List.mem_append.mp hc with hc | hc
    · exact h.single chain hc
    · rw [List.mem_singleton.mp hc]
      exact fun _ => rfl
  · rcases List.mem_append.mp hc with hc | hc
    · exact h.positive chain hc
    · rw [List.mem_singleton.mp hc]

theorem continues {before behind : List Chain} {chain : Chain}
    (h : Accounts start live (before ++ chain :: behind)) (continued : chain.ContinuedBy c)
    (free : ∀ v, c.newVersion = some v → v ∈ live → c.oldVersion = some v) :
    Accounts start (Change.applied live [c])
      (before ++ { chain with last := c.new, length := chain.length + 1 } :: behind) := by
  let longer : Chain := { chain with last := c.new, length := chain.length + 1 }
  obtain ⟨v, led, old⟩ := continuedBy_iff.mp continued
  have balanced := h.balanced
  refine ⟨?_, fun chain' hc single => ?_, fun chain' hc => ?_⟩
  · have olds : (before ++ longer :: behind).filterMap oldVersion =
        (before ++ chain :: behind).filterMap oldVersion := by
      rw [List.filterMap_append, List.filterMap_append]
      rfl
    have news : (before ++ longer :: behind).filterMap newVersion =
        before.filterMap newVersion ++ (c.newVersion.toList ++ behind.filterMap newVersion) := by
      rw [List.filterMap_append, filterMap_cons_eq]
      rfl
    rw [List.filterMap_append (f := newVersion), List.filterMap_cons_some led] at balanced
    show Change.Balanced start _ ((before ++ longer :: behind).filterMap oldVersion) _
    rw [olds, news]
    exact balanced.replace_new old free
  · rcases List.mem_append.mp hc with hc | hc
    · exact h.single chain' (List.mem_append_left _ hc) single
    · rcases List.mem_cons.mp hc with rfl | hc
      · have one : 1 ≤ chain.length := h.positive chain (by simp)
        have two : chain.length + 1 = 1 := single
        omega
      · exact h.single chain' (by simp [hc]) single
  · rcases List.mem_append.mp hc with hc | hc
    · exact h.positive chain' (List.mem_append_left _ hc)
    · rcases List.mem_cons.mp hc with rfl | hc
      · exact Nat.le_add_left 1 _
      · exact h.positive chain' (by simp [hc])

/-- A change is put where it belongs. -/
theorem add (h : Accounts start live chains) (taken : ∀ v, c.oldVersion = some v → v ∈ live)
    (free : ∀ v, c.newVersion = some v → v ∈ live → c.oldVersion = some v) :
    Accounts start (Change.applied live [c]) (Chain.add c chains) := by
  rcases add_cases c chains with ⟨none, added⟩ | ⟨before, chain, behind, rfl, continued, added⟩
  · rw [added]
    exact h.begins none taken free
  · rw [added]
    exact h.continues continued free

/-- The chains of a history account for it, whatever they accounted for before. -/
theorem gather {live' : Finset Version} {changes : List Change}
    (history : Change.History live changes live') : ∀ {chains : List Chain},
    Accounts start live chains →
      Accounts start live' (changes.foldl (fun chains c => Chain.add c chains) chains) := by
  induction history with
  | nil live => exact fun h => h
  | cons taken free rest ih => exact fun h => ih (h.add taken free)

end Accounts

/-- The net change of a chain takes away what the chain takes away, and brings what it has
led to. -/
theorem bind_net {chain : Chain} (single : chain.length = 1 → chain.last = chain.first.new)
    (handle : Nat) :
    (chain.net handle).bind Change.oldVersion = chain.oldVersion ∧
      (chain.net handle).bind Change.newVersion = chain.newVersion := by
  unfold net
  by_cases one : chain.length = 1
  · rw [if_pos one]
    refine ⟨rfl, ?_⟩
    rw [newVersion, single one]
    rfl
  · rw [if_neg one]
    by_cases gone : chain.first.old = none ∧ chain.last = none
    · rw [if_pos gone, newVersion, oldVersion, Change.oldVersion, gone.1, gone.2]
      exact ⟨rfl, rfl⟩
    · rw [if_neg gone]
      exact ⟨rfl, rfl⟩

end Chain

/-! ### Net changes -/

namespace Change

/-- Net changes take away and bring what their chains do. -/
theorem versions_net {start live : Finset Version} {changes : List Change}
    (h : Chain.Accounts start live (Chain.gather changes)) (handle : Nat) :
    (net handle changes).filterMap oldVersion = (Chain.gather changes).filterMap Chain.oldVersion ∧
      (net handle changes).filterMap newVersion =
        (Chain.gather changes).filterMap Chain.newVersion := by
  have each : ∀ x ∈ (Chain.gather changes).zipIdx handle,
      (x.1.net x.2).bind oldVersion = x.1.oldVersion ∧
        (x.1.net x.2).bind newVersion = x.1.newVersion := fun x hx =>
    Chain.bind_net (h.single x.1 (List.fst_mem_of_mem_zipIdx hx)) x.2
  have chains : ∀ f : Chain → Option Version,
      ((Chain.gather changes).zipIdx handle).filterMap (fun x => f x.1) =
        (Chain.gather changes).filterMap f := fun f =>
    calc ((Chain.gather changes).zipIdx handle).filterMap (fun x => f x.1)
        = (((Chain.gather changes).zipIdx handle).map Prod.fst).filterMap f :=
          List.filterMap_map.symm
      _ = (Chain.gather changes).filterMap f := by rw [List.zipIdx_map_fst]
  unfold net
  rw [List.filterMap_filterMap, List.filterMap_filterMap, ← chains Chain.oldVersion,
    ← chains Chain.newVersion]
  exact ⟨List.filterMap_congr fun x hx => (each x hx).1,
    List.filterMap_congr fun x hx => (each x hx).2⟩

/-- At most one change takes away a version if all take away different ones. -/
theorem length_filter_oldVersion (v : Version) : ∀ {changes : List Change},
    (changes.filterMap oldVersion).Nodup →
      (changes.filter fun c => c.oldVersion == some v).length ≤ 1
  | [], _ => Nat.zero_le 1
  | c :: cs, once => by
    rw [Chain.filterMap_cons_eq] at once
    obtain ⟨-, rest, apart⟩ := List.nodup_append.mp once
    by_cases own : c.oldVersion = some v
    · have none : cs.filter (fun d => d.oldVersion == some v) = [] := by
        refine List.filter_eq_nil_iff.mpr fun d hd same => ?_
        exact apart v (by simp [own]) v (List.mem_filterMap.mpr ⟨d, hd, eq_of_beq same⟩) rfl
      rw [List.filter_cons_of_pos (by simp [own]), none]
      exact Nat.le_refl 1
    · rw [List.filter_cons_of_neg (by simp [own])]
      exact length_filter_oldVersion v rest

/-- The net changes of a history, be they asked for or made into a step, take away different
versions, all of them there at the start, bring different versions, and lead from the versions
at the start to those at the end of the history. So at most one of them takes away a version
of the start. -/
theorem merge_balanced {start live : Finset Version} {changes : List Change}
    (history : History start changes live) (a : Archive) :
    ∃ nets, (merge changes).answer a = .ok nets ∧
      (nets.filterMap oldVersion).Nodup ∧ (∀ v ∈ nets.filterMap oldVersion, v ∈ start) ∧
      (nets.filterMap newVersion).Nodup ∧ applied start nets = live ∧
      (∀ v, (nets.filter fun c => c.oldVersion == some v).length ≤ 1) ∧
      ∀ ordinal revision predecessor commits, 1 ≤ ordinal → revision ≠ "" →
        commits.flatMap Commit.changes = changes →
          (Step.make ordinal revision predecessor commits none).answer a =
            .ok ⟨ordinal, revision, predecessor, commits, nets⟩ := by
  have accounts : Chain.Accounts start live (Chain.gather changes) := .gather history (.nil start)
  obtain ⟨olds, news⟩ := versions_net accounts a.nextHandle
  have balanced := accounts.balanced
  rw [← olds, ← news] at balanced
  refine ⟨net a.nextHandle changes, rfl, balanced.olds_once, balanced.olds_there,
    balanced.news_once, ?_, fun v => length_filter_oldVersion v balanced.olds_once, ?_⟩
  · ext v
    rw [mem_applied, balanced.live]
  · rintro ordinal revision predecessor commits one filled rfl
    unfold Step.make Work.require
    rw [if_pos one, if_pos filled, pure_bind, pure_bind]
    rfl

/-- A file is modified and then relocated, and another one is put where the first one was and
removed again: one net change. -/
theorem merge_balanced_reused :
    let a₁ : File := ⟨⟨"a", "r1"⟩, .memory []⟩
    let a₂ : File := ⟨⟨"a", "r2"⟩, .memory []⟩
    let b₂ : File := ⟨⟨"b", "r2"⟩, .memory []⟩
    let changes : List Change :=
      [⟨0, some a₁, some a₂, .compared⟩, ⟨1, some a₂, some b₂, .compared⟩,
        ⟨2, none, some a₂, .compared⟩, ⟨3, some a₂, none, .compared⟩]
    History {a₁.version} changes {b₂.version} ∧
      ∃ nets, (merge changes).answer .empty = .ok nets ∧
        applied {a₁.version} nets = {b₂.version} := by
  intro a₁ a₂ b₂ changes
  have history : History {a₁.version} changes {b₂.version} :=
    .cons (by decide) (by decide) (.cons (by decide) (by decide) (.cons (by decide) (by decide)
      (.cons (by decide) (by decide) (.nil _))))
  obtain ⟨nets, answer, -, -, -, effect, -, -⟩ := merge_balanced history .empty
  exact ⟨history, nets, answer, effect⟩

end Change
end Lineage
