import Mathlib
import Rsleigh.Investigation.SliceIssues

namespace Rsleigh.Investigation

open Agent Json

def IsId (id : String) : Prop :=
  ∃ hex, parseId id = .ok hex

theorem mem_insertText {text other : String} {texts : List String} :
    other ∈ insertText text texts ↔ other = text ∨ other ∈ texts := by
  induction texts with
  | nil => simp [insertText]
  | cons first rest ih =>
    unfold insertText
    split
    · simp
    · split
      · rename_i same
        simp [same]
      · simp only [List.mem_cons,ih]
        exact or_left_comm

theorem mem_textSet {text : String} {texts : List String} : text ∈ textSet texts ↔ text ∈ texts := by
  have folded : ∀ seen : List String,
      text ∈ texts.foldl (fun seen text => insertText text seen) seen ↔ text ∈ seen ∨ text ∈ texts := by
    induction texts with
    | nil => simp
    | cons first rest ih =>
      intro seen
      simp only [List.foldl_cons,ih,mem_insertText,List.mem_cons]
      rw [or_comm (a := text = first),or_assoc]
  simpa [textSet] using folded []

-- Issues and entries are told apart by the first character of their IDs.
def startsWith (c : Char) (id : String) : Prop :=
  id.toList.head? = some c

structure SoundIssue (issue : Issue) : Prop where
  named : startsWith 'q' issue.id ∨ startsWith 'u' issue.id
  checked : checkIssue issue = .ok ()
  sources : ∀ id ∈ cited issue, IsId id

structure SoundIssues (issues : List Issue) : Prop where
  distinct : (issues.map Issue.id).Nodup
  each : ∀ issue ∈ issues, SoundIssue issue

-- The entries of a section are numbered from one.
structure SoundEntries (start : String) (entries : List Entry) : Prop where
  numbered : entries.map Entry.id = (List.range entries.length).map fun index => start ++ toString (index + 1)
  sources : ∀ entry ∈ entries, ∀ id ∈ entry.evidence, IsId id

-- What every document that is committed keeps.
structure Sound (doc : Document) : Prop where
  schema : doc.schema = documentSchema
  revision : doc.revision ≠ 0
  history : doc.history.length = doc.revision
  target : (doc.targetSha.asText.map fun sha => (utf8 sha).length) = some 64
  hint : doc.fileHint.toList.any isControl = false
  issues : SoundIssues doc.issues
  observations : SoundEntries "obs-" doc.observations
  inferences : SoundEntries "inf-" doc.inferences

section Validator

theorem checkIssues_ok : ∀ {issues : List Issue} {seen : List String}, (issues.map Issue.id).Nodup →
    (∀ issue ∈ issues, checkIssue issue = .ok ()) → (∀ issue ∈ issues, issue.id ∉ seen) →
      ∃ later, checkIssues issues seen = .ok later ∧ ∀ id, id ∈ later ↔ id ∈ seen ∨ id ∈ issues.map Issue.id := by
  intro issues
  induction issues with
  | nil =>
    intro seen _ _ _
    exact ⟨seen,rfl,by simp⟩
  | cons issue rest ih =>
    intro seen distinct checked fresh
    obtain ⟨notLater,restDistinct⟩ := List.nodup_cons.mp distinct
    obtain ⟨later,found,members⟩ := @ih (issue.id :: seen) restDistinct
      (fun other member => checked other (List.mem_cons_of_mem _ member)) (by
        intro other member
        simp only [List.mem_cons,not_or]
        refine ⟨?_,fresh other (List.mem_cons_of_mem _ member)⟩
        intro same
        exact notLater (List.mem_map.mpr ⟨other,member,same⟩))
    refine ⟨later,?_,?_⟩
    · unfold checkIssues
      rw [if_neg (fresh issue List.mem_cons_self),checked issue List.mem_cons_self]
      exact found
    · intro id
      simp only [members,List.mem_cons,List.map_cons]
      rw [or_assoc,or_left_comm]

theorem checkEntries_ok : ∀ {entries : List Entry} {seen : List String}, (entries.map Entry.id).Nodup →
    (∀ entry ∈ entries, entry.id ∉ seen) →
      ∃ later, checkEntries entries seen = .ok later ∧ ∀ id, id ∈ later ↔ id ∈ seen ∨ id ∈ entries.map Entry.id := by
  intro entries
  induction entries with
  | nil =>
    intro seen _ _
    exact ⟨seen,rfl,by simp⟩
  | cons entry rest ih =>
    intro seen distinct fresh
    obtain ⟨notLater,restDistinct⟩ := List.nodup_cons.mp distinct
    obtain ⟨later,found,members⟩ := @ih (entry.id :: seen) restDistinct (by
      intro other member
      simp only [List.mem_cons,not_or]
      refine ⟨?_,fresh other (List.mem_cons_of_mem _ member)⟩
      intro same
      exact notLater (List.mem_map.mpr ⟨other,member,same⟩))
    refine ⟨later,?_,?_⟩
    · unfold checkEntries
      rw [if_neg (fresh entry List.mem_cons_self)]
      exact found
    · intro id
      simp only [members,List.mem_cons,List.map_cons]
      rw [or_assoc,or_left_comm]

theorem checkIds_ok {ids : List String} (each : ∀ id ∈ ids, IsId id) : checkIds ids = .ok () := by
  induction ids with
  | nil => rfl
  | cons id rest ih =>
    obtain ⟨hex,parsed⟩ := each id List.mem_cons_self
    unfold checkIds
    rw [parsed]
    exact ih fun other member => each other (List.mem_cons_of_mem _ member)

theorem entries_nodup {start : String} {entries : List Entry} (sound : SoundEntries start entries) :
    (entries.map Entry.id).Nodup := by
  rw [sound.numbered]
  refine List.Nodup.map ?_ List.nodup_range
  intro left right same
  have texts : start.toList ++ (toString (left + 1)).toList = start.toList ++ (toString (right + 1)).toList := by
    simpa only [String.toList_append] using congrArg String.toList same
  simpa using String.toList_inj.mp (List.append_cancel_left texts)

theorem entries_start {start : String} {c : Char} {entries : List Entry} (sound : SoundEntries start entries)
    (starts : startsWith c start) : ∀ id ∈ entries.map Entry.id, startsWith c id := by
  intro id member
  rw [sound.numbered] at member
  obtain ⟨index,_,rfl⟩ := List.mem_map.mp member
  unfold startsWith at *
  rw [String.toList_append,List.head?_append,starts]
  rfl

theorem starts_once {c other : Char} {id : String} (starts : startsWith c id) (differs : startsWith other id) :
    c = other :=
  Option.some.inj (starts.symm.trans differs)

-- A sound document is one that the validator accepts.
theorem sound_accepted {doc : Document} (sound : Sound doc) : validateDocument doc = .ok () := by
  obtain ⟨seen,issues,isIssue⟩ := @checkIssues_ok doc.issues [] sound.issues.distinct
    (fun issue member => (sound.issues.each issue member).checked) (by simp)
  have issueStart : ∀ id ∈ seen, startsWith 'q' id ∨ startsWith 'u' id := by
    intro id member
    obtain ⟨issue,isMember,rfl⟩ := List.mem_map.mp (((isIssue id).mp member).resolve_left (by simp))
    exact (sound.issues.each issue isMember).named
  have observationStart := entries_start (c := 'o') sound.observations rfl
  have inferenceStart := entries_start (c := 'i') sound.inferences rfl
  obtain ⟨both,observations,isEither⟩ := @checkEntries_ok doc.observations seen (entries_nodup sound.observations) (by
    intro entry member inSeen
    have starts := observationStart entry.id (List.mem_map_of_mem member)
    rcases issueStart entry.id inSeen with isQ | isU
    · exact absurd (starts_once starts isQ) (by decide)
    · exact absurd (starts_once starts isU) (by decide))
  obtain ⟨all,inferences,_⟩ := @checkEntries_ok doc.inferences both (entries_nodup sound.inferences) (by
    intro entry member inBoth
    have starts := inferenceStart entry.id (List.mem_map_of_mem member)
    rcases (isEither entry.id).mp inBoth with inSeen | isObservation
    · rcases issueStart entry.id inSeen with isQ | isU
      · exact absurd (starts_once starts isQ) (by decide)
      · exact absurd (starts_once starts isU) (by decide)
    · exact absurd (starts_once starts (observationStart entry.id isObservation)) (by decide))
  have ids : checkIds (referenced doc) = .ok () := by
    refine checkIds_ok fun id member => ?_
    unfold referenced at member
    rw [mem_textSet] at member
    rcases List.mem_append.mp member with earlier | inInference
    · rcases List.mem_append.mp earlier with inIssue | inObservation
      · obtain ⟨issue,isMember,isCited⟩ := List.mem_flatMap.mp inIssue
        exact (sound.issues.each issue isMember).sources id isCited
      · obtain ⟨entry,isMember,isCited⟩ := List.mem_flatMap.mp inObservation
        exact sound.observations.sources entry isMember id isCited
    · obtain ⟨entry,isMember,isCited⟩ := List.mem_flatMap.mp inInference
      exact sound.inferences.sources entry isMember id isCited
  unfold validateDocument
  simp [sound.schema,sound.revision,sound.history,sound.target,sound.hint,issues,observations,inferences,ids,Except.bind]

end Validator

end Rsleigh.Investigation
