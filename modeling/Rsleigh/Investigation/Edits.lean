import Mathlib
import Rsleigh.Investigation.Sound

namespace Rsleigh.Investigation

open Agent Json

-- Every record of the store was produced by an evidence operation.
def RecordedStore (tool : Tool) (store : Store) : Prop :=
  ∀ hex record, store hex = some record → Recorded tool record

theorem load_ok {tool : Tool} {store : Store} {id : String} {record : Json} (loaded : load tool store id = .ok record) :
    IsId id ∧ record.get "id" = .text id ∧ ∃ hex, store hex = some record := by
  unfold load at loaded
  obtain ⟨hex,parsed,loaded⟩ := Fallible.bind_ok.mp loaded
  split at loaded
  · cases loaded
  · rename_i kept found
    split at loaded
    · cases loaded
    · split at loaded
      · cases loaded
      · rename_i same
        cases loaded
        exact ⟨⟨hex,parsed⟩,not_not.mp same,hex,found⟩

-- A record that the document may cite.
def Citable (tool : Tool) (store : Store) (doc : Document) (id : String) (record : Json) : Prop :=
  load tool store id = .ok record ∧ (record.get "subject").get "binary_sha256" = doc.targetSha

theorem citeOne_ok {tool : Tool} {store : Store} {doc : Document} {id : String} {record : Json}
    (ok : citeOne tool store doc id = .ok record) : Citable tool store doc id record := by
  unfold citeOne at ok
  obtain ⟨found,loaded,ok⟩ := Fallible.bind_ok.mp ok
  split at ok
  · cases ok
  · rename_i same
    cases ok
    exact ⟨loaded,not_not.mp same⟩

theorem citeAll_ok {tool : Tool} {store : Store} {doc : Document} {ids : List String} {records : List Json}
    (ok : citeAll tool store doc ids = .ok records) : List.Forall₂ (Citable tool store doc) ids records :=
  (Fallible.mapM_ok ok).imp fun _ _ => citeOne_ok

theorem citeAll_ids {tool : Tool} {store : Store} {doc : Document} {ids : List String} {records : List Json}
    (ok : citeAll tool store doc ids = .ok records) : ∀ id ∈ ids, IsId id := by
  intro id member
  have cited := citeAll_ok ok
  obtain ⟨index,inRange,rfl⟩ := List.getElem_of_mem member
  exact (load_ok (cited.get inRange (cited.length_eq ▸ inRange)).1).1

-- An answer that has been checked: its evidence is in the store and describes the target, and each requirement is
-- satisfied by some of it.
structure Checked (tool : Tool) (store : Store) (doc : Document) (requirements : List Requirement)
    (evidence : List String) : Prop where
  cites : evidence ≠ []
  available : ∀ id ∈ evidence, ∃ record, Citable tool store doc id record
  satisfied : ∀ requirement ∈ requirements, ∃ id ∈ evidence, ∃ record,
    Citable tool store doc id record ∧ satisfies requirement record = true

-- Everything that an edit can do.
inductive Edited (tool : Tool) (store : Store) (revision : Nat) (doc : Document) : Document → Prop where
  | tracked {added : List Issue} : (∀ issue ∈ added, SoundIssue issue) → (∀ issue ∈ added, issue.state = .open) →
      (added.map Issue.id).Nodup → (∀ issue ∈ added, ∀ other ∈ doc.issues, issue.id ≠ other.id) →
        Edited tool store revision doc { doc with issues := doc.issues ++ added }
  | observed {entry : Entry} : entry.id = entryId "obs-" doc.observations → (∀ id ∈ entry.evidence, IsId id) →
      Edited tool store revision doc { doc with observations := doc.observations ++ [entry] }
  | inferred {entry : Entry} : entry.id = entryId "inf-" doc.inferences → (∀ id ∈ entry.evidence, IsId id) →
      Edited tool store revision doc { doc with inferences := doc.inferences ++ [entry] }
  | supported {index : Nat} {cited : List String} : (∀ id ∈ cited, IsId id) →
      Edited tool store revision doc { doc with issues := doc.issues.modify index (Issue.support cited revision) }
  | contradicted {index : Nat} {cited : List String} : (∀ id ∈ cited, IsId id) →
      Edited tool store revision doc { doc with issues := doc.issues.modify index (Issue.contradict cited revision) }
  | closed {index : Nat} {issue : Issue} {state : State} {note : Option String} {evidence : List String}
      {validation : String} : doc.issues[index]? = some issue → issue.state = .open → state ≠ .open →
      (∀ id ∈ evidence, IsId id) → (state = .answered → Checked tool store doc issue.requirements evidence) →
        Edited tool store revision doc
          { doc with issues := doc.issues.modify index (Issue.close state note evidence validation revision) }

section Questions

theorem requirements_ok {args : List String} {found : List Requirement} (ok : requirements args = .ok found) :
    ∀ requirement ∈ found, requirement.wellFormed = true := by
  unfold requirements at ok
  obtain ⟨operations,_,ok⟩ := Fallible.bind_ok.mp ok
  split at ok
  · rename_i known
    cases ok
    intro requirement member
    rw [List.mem_singleton.mp member]
    unfold Requirement.wellFormed
    rw [known]
    rfl
  · cases ok

theorem question_sound {tool : Tool} {text : String} {found : List Requirement} {revision : Nat} {origin : Origin}
    (notBoundary : origin ≠ .sliceBoundary) (wellFormed : ∀ requirement ∈ found, requirement.wellFormed = true) :
    SoundIssue (questionIssue tool text found revision origin) where
  named := by
    left
    simp [startsWith,questionIssue]
  checked := by
    have all : found.all Requirement.wellFormed = true := List.all_eq_true.mpr wellFormed
    simp [checkIssue,questionIssue,notBoundary,all]
  sources := by
    intro id member
    simp [cited,questionIssue] at member

end Questions

section Boundaries

variable {tool : Tool} {record : Json}

theorem nodeFunction_address (node : Json) : isAddress (nodeFunction node) = true :=
  isAddress_addressText _

theorem boundary_sound {id : String} (slice : SliceRecord record) (isId : IsId id)
    (recordId : record.get "id" = .text id) {revision index : Nat} {node : Json} {reason : String}
    (reasonable : isReason reason = true) :
    SoundIssue (boundaryIssue tool (sliceView record) revision index node reason) where
  named := by
    right
    simp [startsWith,boundaryIssue]
  checked := by
    have key : ((boundaryKey (sliceView record) node reason).get "reason").asText = some reason := by
      simp [boundaryKey,get_record]
    have root : (sliceView record).rootFunction.asText.any isAddress = true := by
      simp [slice.rootFunction,isAddress_addressText]
    have located : (boundaryIssue tool (sliceView record) revision index node reason).location.any
        Location.wellFormed = true := by
      simp [boundaryIssue,Location.wellFormed,nodeFunction_address,root,slice.argv]
    have required : (boundaryIssue tool (sliceView record) revision index node reason).requirements.all
        Requirement.wellFormed = true := by
      unfold boundaryIssue
      dsimp only
      split
      · simp [Requirement.wellFormed,root,operationIds]
      · simp [Requirement.wellFormed,nodeFunction_address,operationIds]
    unfold checkIssue
    rw [if_neg (by simp [boundaryIssue]),if_neg (by simp [boundaryIssue])]
    rw [if_neg (by
      intro refused
      refine refused.2 ⟨located,?_⟩
      simpa [boundaryIssue,key] using reasonable)]
    rw [if_neg (by simp [required])]
  sources := by
    intro other member
    have viewed : (sliceView record).record = record := rfl
    simp [cited,boundaryIssue,viewed,recordId] at member
    exact member ▸ isId

theorem node_reason (slice : SliceRecord record) {index : Nat} {node : Json} {reason : String}
    (found : (sliceView record).nodes[index]? = some node) (boundary : (node.get "boundary").asText = some reason) :
    isReason reason = true := by
  rw [slice.nodesRead,List.getElem?_map] at found
  obtain ⟨source,_,rfl⟩ := Option.map_eq_some_iff.mp found
  have read : ((SliceNode.toJson source).get "boundary").asText = source.boundary.map Reason.asText := by
    cases limit : source.boundary <;> simp [SliceNode.toJson,get_record,limit]
  rw [read] at boundary
  obtain ⟨limit,_,rfl⟩ := Option.map_eq_some_iff.mp boundary
  exact reason_accepted limit

theorem boundaryIssues_sound {store : Store} {doc : Document} {id : String} {nodes : List Nat} {revision : Nat}
    {found : List Issue} (recordedStore : RecordedStore tool store) (citable : Citable tool store doc id record)
    (ok : boundaryIssues tool record nodes revision = .ok found) :
    ∀ issue ∈ found, SoundIssue issue ∧ issue.state = .open := by
  obtain ⟨isId,recordId,hex,stored⟩ := load_ok citable.1
  unfold boundaryIssues at ok
  split at ok
  · cases ok
  · rename_i isSlice
    obtain ⟨slice⟩ := recorded_slice (recordedStore hex record stored) (not_not.mp isSlice)
    have each := Fallible.mapM_ok ok
    intro issue member
    obtain ⟨position,inRange,rfl⟩ := List.getElem_of_mem member
    have made := each.get (each.length_eq ▸ inRange) inRange
    unfold nodeIssue at made
    split at made
    · cases made
    · rename_i node isNode
      split at made
      · cases made
      · rename_i reason isReasonText
        have same := Except.ok.inj made
        simp only [List.get_eq_getElem] at same
        rw [← same]
        exact ⟨boundary_sound slice isId recordId (node_reason slice isNode isReasonText),rfl⟩

theorem trackNew_added {found tracked : List Issue} : ∃ added, trackNew tracked found = tracked ++ added ∧
    (∀ issue ∈ added, issue ∈ found) ∧ (added.map Issue.id).Nodup ∧
      ∀ issue ∈ added, ∀ other ∈ tracked, issue.id ≠ other.id := by
  induction found generalizing tracked with
  | nil => exact ⟨[],by simp [trackNew],by simp,by simp,by simp⟩
  | cons issue rest ih =>
    unfold trackNew
    split
    · obtain ⟨added,same,members,distinct,fresh⟩ := @ih tracked
      exact ⟨added,same,fun other member => List.mem_cons_of_mem _ (members other member),distinct,fresh⟩
    · rename_i isNew
      obtain ⟨added,same,members,distinct,fresh⟩ := @ih (tracked ++ [issue])
      refine ⟨issue :: added,?_,?_,?_,?_⟩
      · rw [same,List.append_assoc]
        rfl
      · intro other member
        rcases List.mem_cons.mp member with rfl | later
        · exact List.mem_cons_self
        · exact List.mem_cons_of_mem _ (members other later)
      · rw [List.map_cons]
        refine List.nodup_cons.mpr ⟨?_,distinct⟩
        intro member
        obtain ⟨other,isMember,same⟩ := List.mem_map.mp member
        exact fresh other isMember issue (by simp) same
      · intro other member kept isKept
        rcases List.mem_cons.mp member with rfl | later
        · intro same
          exact isNew (List.any_eq_true.mpr ⟨kept,isKept,by simp [same]⟩)
        · exact fresh other later kept (List.mem_append_left _ isKept)

end Boundaries

section Answers

theorem checkRequirements_ok {id : String} {available : List Json} {requirements : List Requirement}
    (ok : checkRequirements id available requirements = .ok ()) :
    ∀ requirement ∈ requirements, ∃ record ∈ available, satisfies requirement record = true := by
  induction requirements with
  | nil => simp
  | cons first rest ih =>
    unfold checkRequirements at ok
    split at ok
    · rename_i satisfied
      intro requirement member
      rcases List.mem_cons.mp member with rfl | later
      · exact List.any_eq_true.mp satisfied
      · exact ih ok requirement later
    · cases ok

theorem resolution_checked {tool : Tool} {store : Store} {doc : Document} {id : String} {issue : Issue} {state : State}
    {cited evidence : List String} {validation : String} (isId : ∀ id ∈ cited, IsId id)
    (ok : resolutionEvidence tool store doc id issue state cited = .ok (evidence, validation)) :
    (∀ id ∈ evidence, IsId id) ∧ (state = .answered → Checked tool store doc issue.requirements evidence) := by
  unfold resolutionEvidence at ok
  split at ok
  · obtain ⟨available,loaded,ok⟩ := Fallible.bind_ok.mp ok
    split at ok
    · cases ok
    · rename_i nonempty
      obtain ⟨_,required,ok⟩ := Fallible.bind_ok.mp ok
      cases ok
      have cites := citeAll_ok loaded
      refine ⟨citeAll_ids loaded,fun _ => ⟨?_,?_,?_⟩⟩
      · intro empty
        rw [empty] at cites
        cases cites
        exact nonempty rfl
      · intro other member
        obtain ⟨index,inRange,rfl⟩ := List.getElem_of_mem member
        exact ⟨_,cites.get inRange (cites.length_eq ▸ inRange)⟩
      · intro requirement member
        obtain ⟨record,isAvailable,satisfied⟩ := checkRequirements_ok required requirement member
        obtain ⟨index,inRange,rfl⟩ := List.getElem_of_mem isAvailable
        have inEvidence := cites.length_eq ▸ inRange
        exact ⟨_,List.getElem_mem inEvidence,_,cites.get inEvidence inRange,satisfied⟩
  · rename_i notAnswered
    cases ok
    refine ⟨?_,fun answered => absurd answered notAnswered⟩
    intro other member
    exact isId other (mem_textSet.mp member)

theorem disposition_closed {args : List String} {state : State} (ok : givenDisposition args = .ok state) :
    state ≠ .open := by
  unfold givenDisposition at ok
  obtain ⟨given,_,ok⟩ := Fallible.bind_ok.mp ok
  cases given with
  | none => cases ok
  | some disposition =>
    unfold dispositionState at ok
    dsimp only at ok
    split at ok
    · rw [← Except.ok.inj ok]
      decide
    · split at ok
      · rw [← Except.ok.inj ok]
        decide
      · split at ok
        · rw [← Except.ok.inj ok]
          decide
        · cases ok

end Answers

section Actions

variable {tool : Tool} {store : Store} {args given : List String} {revision : Nat} {text subject : String}
  {doc edited : Document}

theorem addQuestion_edits (ok : addQuestion tool args revision text doc = .ok (edited, subject)) :
    Edited tool store revision doc edited := by
  unfold addQuestion at ok
  obtain ⟨found,required,ok⟩ := Fallible.bind_ok.mp ok
  dsimp only at ok
  split at ok
  · cases ok
  · rename_i isNew
    cases ok
    refine .tracked ?_ ?_ (by simp) ?_
    · intro issue member
      rw [List.mem_singleton.mp member]
      exact question_sound (by decide) (requirements_ok required)
    · intro issue member
      rw [List.mem_singleton.mp member]
      rfl
    · intro issue member other isOther same
      rw [List.mem_singleton.mp member] at same
      exact isNew (List.any_eq_true.mpr ⟨other,isOther,by simp [same]⟩)

theorem addUnknowns_edits (recordedStore : RecordedStore tool store)
    (ok : addUnknowns tool store args revision text doc = .ok (edited, subject)) :
    Edited tool store revision doc edited := by
  unfold addUnknowns at ok
  obtain ⟨record,citable,ok⟩ := Fallible.bind_ok.mp ok
  obtain ⟨nodes,_,ok⟩ := Fallible.bind_ok.mp ok
  obtain ⟨found,issues,ok⟩ := Fallible.bind_ok.mp ok
  have sound := boundaryIssues_sound recordedStore (citeOne_ok citable) issues
  obtain ⟨added,same,members,distinct,fresh⟩ := @trackNew_added found doc.issues
  dsimp only at ok
  split at ok
  · cases ok
  · cases ok
    rw [same]
    exact .tracked (fun issue member => (sound issue (members issue member)).1)
      (fun issue member => (sound issue (members issue member)).2) distinct fresh

theorem observe_edits (isId : ∀ id ∈ given, IsId id) (ok : observe given revision text doc = .ok (edited, subject)) :
    Edited tool store revision doc edited := by
  unfold observe at ok
  split at ok
  · cases ok
  · cases ok
    exact .observed rfl isId

theorem attach_edits {action : String} {change : Issue → Issue}
    (edits : ∀ index, Edited tool store revision doc { doc with issues := doc.issues.modify index change })
    (ok : attach action change given text doc = .ok (edited, subject)) : Edited tool store revision doc edited := by
  unfold attach at ok
  split at ok
  · cases ok
  · obtain ⟨index,_,ok⟩ := Fallible.bind_ok.mp ok
    cases ok
    exact edits index

theorem resolve_edits (isId : ∀ id ∈ given, IsId id)
    (ok : resolve tool store args given revision text doc = .ok (edited, subject)) :
    Edited tool store revision doc edited := by
  unfold resolve at ok
  obtain ⟨index,_,ok⟩ := Fallible.bind_ok.mp ok
  split at ok
  · cases ok
  · rename_i issue found
    split at ok
    · cases ok
    · rename_i isOpen
      obtain ⟨state,disposition,ok⟩ := Fallible.bind_ok.mp ok
      obtain ⟨⟨evidence,validation⟩,resolution,ok⟩ := Fallible.bind_ok.mp ok
      obtain ⟨note,_,ok⟩ := Fallible.bind_ok.mp ok
      cases ok
      obtain ⟨ids,checked⟩ := resolution_checked isId resolution
      exact .closed found (not_not.mp isOpen) (disposition_closed disposition) ids checked

end Actions

theorem edit_cases {tool : Tool} {store : Store} {args given : List String} {revision : Nat} {action text : String}
    {doc edited : Document} {subject : String} (recordedStore : RecordedStore tool store)
    (isId : ∀ id ∈ given, IsId id)
    (ok : edit tool store args given revision action text doc = .ok (edited, subject)) :
    Edited tool store revision doc edited := by
  unfold edit at ok
  split at ok
  · exact addQuestion_edits ok
  split at ok
  · exact addUnknowns_edits recordedStore ok
  split at ok
  · exact observe_edits isId ok
  split at ok
  · cases ok
    exact .inferred rfl isId
  split at ok
  · exact attach_edits (fun _ => .supported isId) ok
  split at ok
  · exact attach_edits (fun _ => .contradicted isId) ok
  split at ok
  · exact resolve_edits isId ok
  · cases ok

end Rsleigh.Investigation
