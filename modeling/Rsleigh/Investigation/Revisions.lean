import Mathlib
import Rsleigh.Investigation.Edits

namespace Rsleigh.Investigation

open Agent Json

section Issues

theorem modify_id {change : Issue → Issue} (keeps : ∀ issue, (change issue).id = issue.id) {issues : List Issue}
    {index : Nat} : (issues.modify index change).map Issue.id = issues.map Issue.id := by
  induction issues generalizing index with
  | nil => simp
  | cons issue rest ih =>
    cases index with
    | zero => simp [keeps]
    | succ index => simp [ih]

theorem mem_modify {change : Issue → Issue} {issues : List Issue} {index : Nat} {issue : Issue}
    (member : issue ∈ issues.modify index change) :
    issue ∈ issues ∨ ∃ old, issues[index]? = some old ∧ issue = change old := by
  obtain ⟨position,found⟩ := List.mem_iff_getElem?.mp member
  rw [List.getElem?_modify] at found
  by_cases same : index = position
  · subst same
    simp only [if_true] at found
    obtain ⟨old,isOld,changed⟩ := Option.map_eq_some_iff.mp found
    exact Or.inr ⟨old,isOld,changed.symm⟩
  · simp only [same,if_false,Option.map_id_fun',id] at found
    exact Or.inl (List.mem_of_getElem? (by simpa using found))

-- The checks of one issue, taken apart.
structure CheckedIssue (issue : Issue) : Prop where
  closed : issue.state = .open ↔ issue.resolution = none
  answered : issue.state = .answered → (issue.resolution.map Resolution.evidence).getD [] ≠ []
  boundary : issue.origin = .sliceBoundary →
    issue.location.any Location.wellFormed = true ∧ isReason ((issue.key.get "reason").asText.getD "") = true
  required : issue.requirements.all Requirement.wellFormed = true

theorem agree_iff {p : Prop} [Decidable p] {found : Option α} : decide p = found.isNone ↔ (p ↔ found = none) := by
  cases found <;> simp

theorem checkIssue_iff {issue : Issue} : checkIssue issue = .ok () ↔ CheckedIssue issue := by
  constructor
  · intro ok
    unfold checkIssue at ok
    split at ok
    · cases ok
    rename_i closed
    split at ok
    · cases ok
    rename_i answered
    split at ok
    · cases ok
    rename_i boundary
    split at ok
    · cases ok
    rename_i required
    refine ⟨?_,?_,?_,by simpa using required⟩
    · exact agree_iff.mp (not_not.mp closed)
    · intro isAnswered empty
      exact answered ⟨isAnswered,by simp [empty]⟩
    · intro isBoundary
      by_contra refused
      exact boundary ⟨isBoundary,refused⟩
  · intro checked
    unfold checkIssue
    rw [if_neg (not_not.mpr (agree_iff.mpr checked.closed))]
    rw [if_neg (by
      intro refused
      exact checked.answered refused.1 (List.isEmpty_iff.mp refused.2))]
    rw [if_neg (by
      intro refused
      exact refused.2 (checked.boundary refused.1))]
    rw [if_neg (by simp [checked.required])]

theorem mergeIds_ids {target added : List String} (kept : ∀ id ∈ target, IsId id) (new : ∀ id ∈ added, IsId id) :
    ∀ id ∈ mergeIds target added, IsId id := by
  intro id member
  rcases List.mem_append.mp (mem_textSet.mp member) with old | isNew
  · exact kept id old
  · exact new id isNew

variable {issue : Issue} {ids : List String} {revision : Nat}

theorem support_sound (sound : SoundIssue issue) (isId : ∀ id ∈ ids, IsId id) : SoundIssue (issue.support ids revision) where
  named := sound.named
  checked := sound.checked
  sources := by
    intro id member
    have sources := sound.sources
    simp only [cited,Issue.support,List.mem_append] at member sources
    rcases member with ((source | supporting) | contradicting) | resolved
    · exact sources id (Or.inl (Or.inl (Or.inl source)))
    · exact mergeIds_ids (fun id old => sources id (Or.inl (Or.inl (Or.inr old)))) isId id supporting
    · exact sources id (Or.inl (Or.inr contradicting))
    · exact sources id (Or.inr resolved)

theorem contradict_sound (sound : SoundIssue issue) (isId : ∀ id ∈ ids, IsId id) :
    SoundIssue (issue.contradict ids revision) where
  named := sound.named
  checked := sound.checked
  sources := by
    intro id member
    have sources := sound.sources
    simp only [cited,Issue.contradict,List.mem_append] at member sources
    rcases member with ((source | supporting) | contradicting) | resolved
    · exact sources id (Or.inl (Or.inl (Or.inl source)))
    · exact sources id (Or.inl (Or.inl (Or.inr supporting)))
    · exact mergeIds_ids (fun id old => sources id (Or.inl (Or.inr old))) isId id contradicting
    · exact sources id (Or.inr resolved)

theorem close_sound {state : State} {note : Option String} {validation : String} (sound : SoundIssue issue)
    (isClosed : state ≠ .open) (isId : ∀ id ∈ ids, IsId id) (cites : state = .answered → ids ≠ []) :
    SoundIssue (issue.close state note ids validation revision) where
  named := sound.named
  checked := by
    have checked := checkIssue_iff.mp sound.checked
    exact checkIssue_iff.mpr ⟨by simp [Issue.close,isClosed],cites,checked.boundary,checked.required⟩
  sources := by
    intro id member
    have sources := sound.sources
    simp only [cited,List.mem_append] at member sources
    rcases member with ((source | supporting) | contradicting) | resolved
    · exact sources id (Or.inl (Or.inl (Or.inl source)))
    · exact sources id (Or.inl (Or.inl (Or.inr supporting)))
    · exact sources id (Or.inl (Or.inr contradicting))
    · exact isId id resolved

end Issues

section Sections

theorem append_entry {start : String} {entries : List Entry} {entry : Entry} (sound : SoundEntries start entries)
    (named : entry.id = entryId start entries) (isId : ∀ id ∈ entry.evidence, IsId id) :
    SoundEntries start (entries ++ [entry]) where
  numbered := by
    rw [List.map_append,sound.numbered,List.length_append,List.length_singleton,List.range_succ,List.map_append,
      List.map_singleton,List.map_singleton,named]
    rfl
  sources := by
    intro other member
    rcases List.mem_append.mp member with old | new
    · exact sound.sources other old
    · rw [List.mem_singleton.mp new]
      exact isId

theorem modify_sound {issues : List Issue} {index : Nat} {change : Issue → Issue} (sound : SoundIssues issues)
    (keeps : ∀ issue, (change issue).id = issue.id)
    (changed : ∀ issue, issues[index]? = some issue → SoundIssue (change issue)) :
    SoundIssues (issues.modify index change) where
  distinct := by
    rw [modify_id keeps]
    exact sound.distinct
  each := by
    intro issue member
    rcases mem_modify member with old | ⟨old,found,rfl⟩
    · exact sound.each issue old
    · exact changed old found

end Sections

theorem edited_keeps {tool : Tool} {store : Store} {revision : Nat} {doc edited : Document}
    (edits : Edited tool store revision doc edited) :
    edited.schema = doc.schema ∧ edited.revision = doc.revision ∧ edited.history = doc.history ∧
      edited.target = doc.target ∧ edited.fileHint = doc.fileHint := by
  cases edits <;> exact ⟨rfl,rfl,rfl,rfl,rfl⟩

theorem edited_issues {tool : Tool} {store : Store} {revision : Nat} {doc edited : Document}
    (edits : Edited tool store revision doc edited) (sound : SoundIssues doc.issues) : SoundIssues edited.issues := by
  cases edits with
  | @tracked added each _ distinct fresh =>
    refine ⟨?_,?_⟩
    · rw [List.map_append]
      refine List.Nodup.append sound.distinct distinct ?_
      intro id inDoc inAdded
      obtain ⟨other,isOther,rfl⟩ := List.mem_map.mp inDoc
      obtain ⟨issue,isIssue,same⟩ := List.mem_map.mp inAdded
      exact fresh issue isIssue other isOther same
    · intro issue member
      rcases List.mem_append.mp member with old | new
      · exact sound.each issue old
      · exact each issue new
  | observed => exact sound
  | inferred => exact sound
  | supported isId =>
    exact modify_sound sound (fun _ => rfl) fun issue found =>
      support_sound (sound.each issue (List.mem_of_getElem? found)) isId
  | contradicted isId =>
    exact modify_sound sound (fun _ => rfl) fun issue found =>
      contradict_sound (sound.each issue (List.mem_of_getElem? found)) isId
  | closed isIssue _ isClosed isId checked =>
    refine modify_sound sound (fun _ => rfl) fun issue found => ?_
    exact close_sound (sound.each issue (List.mem_of_getElem? found)) isClosed isId fun answered =>
      (checked answered).cites

theorem edited_sections {tool : Tool} {store : Store} {revision : Nat} {doc edited : Document}
    (edits : Edited tool store revision doc edited) (observations : SoundEntries "obs-" doc.observations)
    (inferences : SoundEntries "inf-" doc.inferences) :
    SoundEntries "obs-" edited.observations ∧ SoundEntries "inf-" edited.inferences := by
  cases edits with
  | observed named isId => exact ⟨append_entry observations named isId,inferences⟩
  | inferred named isId => exact ⟨observations,append_entry inferences named isId⟩
  | tracked => exact ⟨observations,inferences⟩
  | supported => exact ⟨observations,inferences⟩
  | contradicted => exact ⟨observations,inferences⟩
  | closed => exact ⟨observations,inferences⟩

-- An issue from one revision to a later one.
structure IssueGrows (before after : Issue) : Prop where
  id : after.id = before.id
  requirements : after.requirements = before.requirements
  supporting : ∀ id ∈ before.supporting, id ∈ after.supporting
  contradicting : ∀ id ∈ before.contradicting, id ∈ after.contradicting
  closed : before.state ≠ .open → after.state = before.state ∧ after.resolution = before.resolution

-- A document from one revision to a later one: nothing that was in it is gone, and what is closed stays as it was.
structure Grows (before after : Document) : Prop where
  target : after.target = before.target
  issues : ∀ (index : Nat) (issue : Issue), before.issues[index]? = some issue →
    ∃ later, after.issues[index]? = some later ∧ IssueGrows issue later
  observations : before.observations <+: after.observations
  inferences : before.inferences <+: after.inferences
  history : before.history <+: after.history

theorem issueGrows_refl (issue : Issue) : IssueGrows issue issue :=
  ⟨rfl,rfl,fun _ member => member,fun _ member => member,fun _ => ⟨rfl,rfl⟩⟩

theorem issueGrows_trans {first second third : Issue} (one : IssueGrows first second) (two : IssueGrows second third) :
    IssueGrows first third where
  id := two.id.trans one.id
  requirements := two.requirements.trans one.requirements
  supporting := fun id member => two.supporting id (one.supporting id member)
  contradicting := fun id member => two.contradicting id (one.contradicting id member)
  closed := by
    intro isClosed
    obtain ⟨state,resolution⟩ := one.closed isClosed
    obtain ⟨laterState,laterResolution⟩ := two.closed (state ▸ isClosed)
    exact ⟨laterState.trans state,laterResolution.trans resolution⟩

theorem grows_refl (doc : Document) : Grows doc doc :=
  ⟨rfl,fun _ issue found => ⟨issue,found,issueGrows_refl issue⟩,List.prefix_refl _,List.prefix_refl _,List.prefix_refl _⟩

theorem grows_trans {first second third : Document} (one : Grows first second) (two : Grows second third) :
    Grows first third where
  target := two.target.trans one.target
  issues := by
    intro index issue found
    obtain ⟨middle,isMiddle,grows⟩ := one.issues index issue found
    obtain ⟨later,isLater,growsLater⟩ := two.issues index middle isMiddle
    exact ⟨later,isLater,issueGrows_trans grows growsLater⟩
  observations := one.observations.trans two.observations
  inferences := one.inferences.trans two.inferences
  history := one.history.trans two.history

theorem modify_grows {issues : List Issue} {index : Nat} {change : Issue → Issue}
    (grows : ∀ issue, issues[index]? = some issue → IssueGrows issue (change issue)) :
    ∀ (position : Nat) (issue : Issue), issues[position]? = some issue →
      ∃ later, (issues.modify index change)[position]? = some later ∧ IssueGrows issue later := by
  intro position issue found
  rw [List.getElem?_modify,found]
  by_cases same : index = position
  · subst same
    exact ⟨change issue,by simp,grows issue found⟩
  · exact ⟨issue,by simp [same],issueGrows_refl issue⟩

theorem mergeIds_keeps {target added : List String} : ∀ id ∈ target, id ∈ mergeIds target added :=
  fun _ member => mem_textSet.mpr (List.mem_append_left _ member)

theorem edited_grows {tool : Tool} {store : Store} {revision : Nat} {doc edited : Document}
    (edits : Edited tool store revision doc edited) : Grows doc edited := by
  have same := grows_refl doc
  cases edits with
  | tracked =>
    refine { same with issues := ?_ }
    intro index issue found
    refine ⟨issue,?_,issueGrows_refl issue⟩
    rw [List.getElem?_append_left (List.getElem?_eq_some_iff.mp found).1]
    exact found
  | observed => exact { same with observations := List.prefix_append _ _ }
  | inferred => exact { same with inferences := List.prefix_append _ _ }
  | supported =>
    refine { same with issues := modify_grows ?_ }
    intro issue _
    exact { issueGrows_refl issue with supporting := mergeIds_keeps }
  | contradicted =>
    refine { same with issues := modify_grows ?_ }
    intro issue _
    exact { issueGrows_refl issue with contradicting := mergeIds_keeps }
  | closed isIssue isOpen =>
    refine { same with issues := modify_grows ?_ }
    intro issue found
    rw [isIssue] at found
    cases found
    exact { issueGrows_refl _ with closed := fun isClosed => absurd isOpen isClosed }

-- An issue that was answered by an update of this document, with the store of that update.
structure Justified (tool : Tool) (store : Store) (doc : Document) (issue : Issue) : Prop where
  resolved : ∃ resolution, issue.resolution = some resolution ∧ resolution.revision = doc.revision + 1 ∧
    Checked tool store doc issue.requirements resolution.evidence

theorem edited_answers {tool : Tool} {store : Store} {doc edited : Document}
    (edits : Edited tool store (doc.revision + 1) doc edited) :
    ∀ issue ∈ edited.issues, issue.state = .answered → Justified tool store doc issue ∨
      ∃ old ∈ doc.issues, old.state = .answered ∧ old.resolution = issue.resolution ∧
        old.requirements = issue.requirements := by
  intro issue member answered
  cases edits with
  | tracked _ isOpen =>
    rcases List.mem_append.mp member with old | new
    · exact Or.inr ⟨issue,old,answered,rfl,rfl⟩
    · rw [isOpen issue new] at answered
      cases answered
  | observed => exact Or.inr ⟨issue,member,answered,rfl,rfl⟩
  | inferred => exact Or.inr ⟨issue,member,answered,rfl,rfl⟩
  | supported =>
    rcases mem_modify member with old | ⟨old,found,rfl⟩
    · exact Or.inr ⟨issue,old,answered,rfl,rfl⟩
    · exact Or.inr ⟨old,List.mem_of_getElem? found,answered,rfl,rfl⟩
  | contradicted =>
    rcases mem_modify member with old | ⟨old,found,rfl⟩
    · exact Or.inr ⟨issue,old,answered,rfl,rfl⟩
    · exact Or.inr ⟨old,List.mem_of_getElem? found,answered,rfl,rfl⟩
  | closed isIssue isOpen isClosed isId checked =>
    rcases mem_modify member with old | ⟨old,found,rfl⟩
    · exact Or.inr ⟨issue,old,answered,rfl,rfl⟩
    · rw [isIssue] at found
      cases found
      exact Or.inl ⟨_,rfl,rfl,checked answered⟩

-- What a draft commits to, from a sound document: a sound one that has grown, with every new answer checked.
structure Follows (tool : Tool) (store : Store) (doc next : Document) : Prop where
  sound : Sound next
  grows : Grows doc next
  revision : next.revision = doc.revision + 1
  answers : ∀ issue ∈ next.issues, issue.state = .answered → Justified tool store doc issue ∨
    ∃ old ∈ doc.issues, old.state = .answered ∧ old.resolution = issue.resolution ∧
      old.requirements = issue.requirements

theorem edited_follows {tool : Tool} {store : Store} {doc edited : Document} {action subject : String}
    (edits : Edited tool store (doc.revision + 1) doc edited) (sound : Sound doc) :
    Follows tool store doc (commitTo (doc.revision + 1) action subject edited) := by
  obtain ⟨schema,revision,history,target,hint⟩ := edited_keeps edits
  obtain ⟨observations,inferences⟩ := edited_sections edits sound.observations sound.inferences
  have grows := edited_grows edits
  have issues := edited_issues edits sound.issues
  have answers := edited_answers edits
  constructor
  · exact {
      schema := schema.trans sound.schema
      revision := Nat.succ_ne_zero _
      history := by simp [commitTo,history,sound.history]
      target := by simpa [commitTo,Document.targetSha,target] using sound.target
      hint := by simpa only [commitTo,hint] using sound.hint
      issues := issues
      observations := observations
      inferences := inferences }
  · exact { grows with history := grows.history.trans (List.prefix_append _ _) }
  · rfl
  · exact answers

theorem draft_follows {tool : Tool} {store : Store} {source : Option (List UInt8)} {args : List String}
    {doc next : Document} (recordedStore : RecordedStore tool store) (sound : Sound doc)
    (ok : draft tool store source args doc = .ok (some next)) : Follows tool store doc next := by
  unfold draft at ok
  obtain ⟨_,_,ok⟩ := Fallible.bind_ok.mp ok
  split at ok
  · split at ok
    · cases ok
    · cases ok
  · cases ok
  · split at ok
    · cases ok
    · obtain ⟨_,_,ok⟩ := Fallible.bind_ok.mp ok
      obtain ⟨given,_,ok⟩ := Fallible.bind_ok.mp ok
      obtain ⟨records,cites,ok⟩ := Fallible.bind_ok.mp ok
      obtain ⟨text,_,ok⟩ := Fallible.bind_ok.mp ok
      obtain ⟨⟨edited,subject⟩,edits,ok⟩ := Fallible.bind_ok.mp ok
      cases ok
      exact edited_follows (edit_cases recordedStore (citeAll_ids cites) edits) sound

theorem update_draft {tool : Tool} {store : Store} {source : Option (List UInt8)} {args : List String}
    {doc next : Document} (ok : update tool store source args doc = .ok (some next)) :
    draft tool store source args doc = .ok (some next) := by
  unfold update at ok
  obtain ⟨found,drafted,ok⟩ := Fallible.bind_ok.mp ok
  cases found with
  | none => cases ok
  | some found =>
    dsimp only at ok
    split at ok
    · cases ok
      exact drafted
    · cases ok

theorem accepted_hint {doc : Document} (accepted : validateDocument doc = .ok ()) :
    doc.fileHint.toList.any isControl = false ∧
      (doc.targetSha.asText.map fun sha => (utf8 sha).length) = some 64 := by
  unfold validateDocument at accepted
  split at accepted
  · cases accepted
  split at accepted
  · cases accepted
  split at accepted
  · cases accepted
  split at accepted
  · cases accepted
  rename_i target
  obtain ⟨_,_,accepted⟩ := Fallible.bind_ok.mp accepted
  split at accepted
  · cases accepted
  rename_i hint
  exact ⟨by simpa using hint,not_not.mp target⟩

theorem created_sound {tool : Tool} {binaryPath : String} {data : List UInt8} {args : List String} {nonce : Nat}
    {doc : Document} (created : create tool binaryPath data args nonce = .ok doc) : Sound doc := by
  unfold create at created
  obtain ⟨question,_,created⟩ := Fallible.bind_ok.mp created
  cases question with
  | none => cases created
  | some question =>
    obtain ⟨found,required,created⟩ := Fallible.bind_ok.mp created
    dsimp only at created
    split at created
    · rename_i accepted
      cases created
      obtain ⟨hint,target⟩ := accepted_hint accepted
      constructor
      · rfl
      · exact Nat.one_ne_zero
      · rfl
      · exact target
      · exact hint
      · refine ⟨List.nodup_singleton _,?_⟩
        intro issue member
        rw [List.mem_singleton.mp member]
        exact question_sound (by decide) (requirements_ok required)
      · exact ⟨rfl,by simp [createdDocument]⟩
      · exact ⟨rfl,by simp [createdDocument]⟩
    · cases created

theorem created_open {tool : Tool} {binaryPath : String} {data : List UInt8} {args : List String} {nonce : Nat}
    {doc : Document} (created : create tool binaryPath data args nonce = .ok doc) :
    ∀ issue ∈ doc.issues, issue.state = .open := by
  unfold create at created
  obtain ⟨question,_,created⟩ := Fallible.bind_ok.mp created
  cases question with
  | none => cases created
  | some question =>
    obtain ⟨found,_,created⟩ := Fallible.bind_ok.mp created
    dsimp only at created
    split at created
    · cases created
      intro issue member
      rw [List.mem_singleton.mp member]
      rfl
    · cases created

-- One invocation of an update: the store as it finds it, the binary if one is given, and its arguments.
structure Step where
  store : Store
  source : Option (List UInt8)
  args : List String

-- An update that is refused, and an investigation that is only shown, leave the revisions as they are.
def Step.next (tool : Tool) (doc : Document) (step : Step) : Document :=
  match update tool step.store step.source step.args doc with
  | .ok (some next) => next
  | .ok none => doc
  | .error _ => doc

def latest (tool : Tool) (first : Document) (steps : List Step) : Document :=
  steps.foldl (Step.next tool) first

theorem latest_append {tool : Tool} {first : Document} {before after : List Step} :
    latest tool first (before ++ after) = latest tool (latest tool first before) after :=
  List.foldl_append

theorem step_cases {tool : Tool} {doc : Document} {step : Step} (recordedStore : RecordedStore tool step.store)
    (sound : Sound doc) : step.next tool doc = doc ∨ Follows tool step.store doc (step.next tool doc) := by
  unfold Step.next
  split
  · rename_i next ok
    exact Or.inr (draft_follows recordedStore sound (update_draft ok))
  · exact Or.inl rfl
  · exact Or.inl rfl

theorem latest_sound {tool : Tool} {first : Document} {steps : List Step} (sound : Sound first)
    (recorded : ∀ step ∈ steps, RecordedStore tool step.store) : Sound (latest tool first steps) := by
  induction steps generalizing first with
  | nil => exact sound
  | cons step rest ih =>
    refine ih ?_ fun other member => recorded other (List.mem_cons_of_mem _ member)
    rcases step_cases (recorded step List.mem_cons_self) sound with same | follows
    · rw [same]
      exact sound
    · exact follows.sound

theorem latest_grows {tool : Tool} {first : Document} {steps : List Step} (sound : Sound first)
    (recorded : ∀ step ∈ steps, RecordedStore tool step.store) : Grows first (latest tool first steps) := by
  induction steps generalizing first with
  | nil => exact grows_refl first
  | cons step rest ih =>
    have later : ∀ other ∈ rest, RecordedStore tool other.store :=
      fun other member => recorded other (List.mem_cons_of_mem _ member)
    rcases step_cases (recorded step List.mem_cons_self) sound with same | follows
    · have grows := ih sound later
      simpa [latest,same] using grows
    · exact grows_trans follows.grows (ih follows.sound later)

theorem latest_answers {tool : Tool} {first : Document} {steps : List Step} (sound : Sound first)
    (recorded : ∀ step ∈ steps, RecordedStore tool step.store) :
    ∀ issue ∈ (latest tool first steps).issues, issue.state = .answered →
      (∃ old ∈ first.issues, old.state = .answered ∧ old.resolution = issue.resolution ∧
        old.requirements = issue.requirements) ∨
      ∃ before step after, steps = before ++ step :: after ∧
        Justified tool step.store (latest tool first before) issue := by
  induction steps generalizing first with
  | nil =>
    intro issue member answered
    exact Or.inl ⟨issue,member,answered,rfl,rfl⟩
  | cons step rest ih =>
    intro issue member answered
    have later : ∀ other ∈ rest, RecordedStore tool other.store :=
      fun other isOther => recorded other (List.mem_cons_of_mem _ isOther)
    have moved : Sound (step.next tool first) :=
      @latest_sound tool first [step] sound fun other isOther =>
        recorded other (List.mem_singleton.mp isOther ▸ List.mem_cons_self)
    rcases ih moved later issue member answered with ⟨old,isOld,oldAnswered,resolution,requirements⟩ | found
    · rcases step_cases (recorded step List.mem_cons_self) sound with same | follows
      · rw [same] at isOld
        exact Or.inl ⟨old,isOld,oldAnswered,resolution,requirements⟩
      · rcases follows.answers old isOld oldAnswered with justified | ⟨older,isOlder,olderAnswered,same,needs⟩
        · obtain ⟨found,isFound,revision,checked⟩ := justified.resolved
          refine Or.inr ⟨[],step,rest,rfl,⟨found,resolution ▸ isFound,revision,requirements ▸ checked⟩⟩
        · exact Or.inl ⟨older,isOlder,olderAnswered,same.trans resolution,needs.trans requirements⟩
    · obtain ⟨before,answering,after,rfl,justified⟩ := found
      exact Or.inr ⟨step :: before,answering,after,rfl,justified⟩

-- Over every run of updates on a created investigation: an update that passes its own checks is accepted by the
-- validator, so the latest document always is; every answer was checked, by the update that gave it, against evidence
-- that was in the store and describes the target; and from each revision to every later one nothing is lost, and what
-- is closed stays as it was.
theorem investigation_stays_justified {tool : Tool} {binaryPath : String} {data : List UInt8} {args : List String}
    {nonce : Nat} {first : Document} (created : create tool binaryPath data args nonce = .ok first)
    (steps : List Step) (recorded : ∀ step ∈ steps, RecordedStore tool step.store) :
    (∀ (step : Step) (next : Document), RecordedStore tool step.store →
      draft tool step.store step.source step.args (latest tool first steps) = .ok (some next) →
        validateDocument next = .ok () ∧ next.revision = (latest tool first steps).revision + 1) ∧
    validateDocument (latest tool first steps) = .ok () ∧
    (∀ issue ∈ (latest tool first steps).issues, issue.state = .answered →
      ∃ before step after, steps = before ++ step :: after ∧
        Justified tool step.store (latest tool first before) issue) ∧
    ∀ before after, steps = before ++ after → Grows (latest tool first before) (latest tool first steps) := by
  have start := created_sound created
  have sound := latest_sound start recorded
  refine ⟨?_,sound_accepted sound,?_,?_⟩
  · intro step next recordedStore ok
    have follows := draft_follows recordedStore sound ok
    exact ⟨sound_accepted follows.sound,follows.revision⟩
  · intro issue member answered
    rcases latest_answers start recorded issue member answered with ⟨old,isOld,oldAnswered,_⟩ | found
    · rw [created_open created old isOld] at oldAnswered
      cases oldAnswered
    · exact found
  · intro before after split
    subst split
    rw [latest_append]
    refine latest_grows (latest_sound start ?_) ?_
    · intro step member
      exact recorded step (List.mem_append_left _ member)
    · intro step member
      exact recorded step (List.mem_append_right _ member)

-- A tool whose hash does not look at what it hashes.
def plainTool : Tool where
  sha256 := fun _ => "0000000000000000000000000000000000000000000000000000000000000000"
  container := fun _ => none
  version := "0"
  build := .null

def plainDocument : Document :=
  createdDocument plainTool "sample" [] "why" [⟨[], .null⟩] 0

def inferLength : Step where
  store := fun _ => none
  source := none
  args := ["rsleigh","--investigation","store","--expect-revision","1","--infer","it reads a length"]

theorem plain_created :
    create plainTool "sample" [] ["rsleigh","sample","--investigate","store","--question","why"] 0 =
      .ok plainDocument := by
  decide +kernel

theorem emptyStore_recorded : RecordedStore plainTool inferLength.store := by
  intro hex record found
  cases found

theorem inferring_stays_justified : (latest plainTool plainDocument [inferLength]).revision = 2 ∧
    validateDocument (latest plainTool plainDocument [inferLength]) = .ok () ∧
    Grows plainDocument (latest plainTool plainDocument [inferLength]) := by
  have recorded : ∀ step ∈ [inferLength], RecordedStore plainTool step.store := by
    intro step member
    rw [List.mem_singleton.mp member]
    exact emptyStore_recorded
  obtain ⟨_,accepted,_,grows⟩ := investigation_stays_justified plain_created [inferLength] recorded
  exact ⟨by decide +kernel,accepted,grows [] [inferLength] rfl⟩

end Rsleigh.Investigation
