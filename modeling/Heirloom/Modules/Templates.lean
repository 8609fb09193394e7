import Heirloom.Lib.Forest
import Heirloom.Modules.Host

/-!
# Template inheritance

A template may inherit from a parent. Templates are numbered from 0 on, and the number
0 also stands for "no parent". Three loops walk up the chain of parents: the check at a
creation, the resolution and the depth, each with its own limit.

Results:
1. `templates_resolvable`: in every run in which no template is to inherit from template
   0 or gets more than 15 ancestors, and no number is given out twice, each template has
   the parent that was asked for, resolves, and has the depth of its chain; any other
   creation that succeeds ends that.
2. `templates_unresolvable`: a child of template 0 that has no parent, and a chain of 17
   templates, all accepted, whose last does not resolve.
-/

namespace Heirloom.Modules.Templates

open Transaction TypedStore Runs Forest

/-! ## Constants and records -/

def maxInheritanceDepth : Nat := 16

structure Template where
  templateId : Nat
  name : Bytes
  data : Bytes
  /-- 0 for a root. -/
  parentTemplateId : Nat
  overrides : Bytes
  createdAt : Nat
deriving DecidableEq

structure ResolvedTemplate where
  templateId : Nat
  name : Bytes
  resolvedData : Bytes
  depth : Nat
  resolvedAt : Nat
deriving DecidableEq

structure CycleCheckResult where
  hasCycle : Bool
  cyclePath : List Nat
deriving DecidableEq

/-! ## Storage -/

inductive TemplateKey
  | template (templateId : Nat)
  | templateParent (templateId : Nat)
  | templateOverrides (templateId : Nat)
  | templateCount
  | resolvedTemplate (templateId : Nat)
deriving DecidableEq

/-- The type of the value under a key. -/
@[reducible] def TemplateKey.Value : TemplateKey → Type
  | .template _ => Template
  | .templateParent _ => Nat
  | .templateOverrides _ => Bytes
  | .templateCount => Nat
  | .resolvedTemplate _ => ResolvedTemplate

abbrev State := Store TemplateKey.Value

abbrev storageGet (k : TemplateKey) : Routine TemplateKey.Value (Option k.Value) := load k

abbrev storageSet (k : TemplateKey) (v : k.Value) : Routine TemplateKey.Value Unit := save k v

/-! ## Functions -/

def getTemplate (templateId : Nat) : Routine TemplateKey.Value (Option Template) :=
  storageGet (.template templateId)

def getParentTemplateId (templateId : Nat) : Routine TemplateKey.Value Nat := do
  let parent : Option Nat ← storageGet (.templateParent templateId)
  pure (parent.getD 0)

/-- One round of the check; `next` goes on with the parent. -/
def checkRound (childId current : Nat) (visited : List Nat)
    (next : Routine TemplateKey.Value CycleCheckResult) :
    Routine TemplateKey.Value CycleCheckResult :=
  if current = childId then pure ⟨true, visited ++ [childId]⟩
  else if current = 0 then pure ⟨false, []⟩
  else next

/-- The loop of the check, with `left` templates still allowed on the path. -/
def checkFrom (childId : Nat) : Nat → Nat → List Nat → Routine TemplateKey.Value CycleCheckResult
  | 0, current, visited => checkRound childId current visited (pure ⟨true, visited⟩)
  | left + 1, current, visited =>
      checkRound childId current visited
        (if current ∈ visited then pure ⟨true, visited⟩
        else do
          let parent ← getParentTemplateId current
          checkFrom childId left parent (visited ++ [current]))

/-- Whether a child of `parentId` under the number `childId` would close a cycle. -/
def checkInheritanceCycle (parentId childId : Nat) :
    Routine TemplateKey.Value CycleCheckResult :=
  checkFrom childId maxInheritanceDepth parentId []

def createTemplate (name data : Bytes) (parentTemplateId : Nat) (overrides : Bytes) :
    Routine TemplateKey.Value Nat := do
  let count : Option Nat ← storageGet .templateCount
  let templateId := count.getD 0
  Tx.onlyIf (0 < parentTemplateId) do
    let parent ← getTemplate parentTemplateId
    require (parent.isSome = true) .templateNotFound
    let result ← checkInheritanceCycle parentTemplateId templateId
    require (result.hasCycle = false) .inheritanceCycleDetected
  let now ← ask (·.timestamp)
  storageSet (.template templateId) ⟨templateId, name, data, parentTemplateId, overrides, now⟩
  Tx.onlyIf (0 < parentTemplateId) do
    storageSet (.templateParent templateId) parentTemplateId
    storageSet (.templateOverrides templateId) overrides
  storageSet .templateCount (saturatingAdd64 templateId 1)
  pure templateId

def createInheritedTemplate (parentId : Nat) (overrides : Bytes) :
    Routine TemplateKey.Value Nat := do
  let parent ← getTemplate parentId
  let parentTemplate ← fromSome parent (.error .templateNotFound)
  createTemplate parentTemplate.name parentTemplate.data parentId overrides

/-- One round of the resolution; `next` goes on with the parent. The overrides on the way
are collected by the source and not applied. -/
def resolveRound (current depth : Nat) (seen : List Nat)
    (next : Nat → Routine TemplateKey.Value (Option Nat)) :
    Routine TemplateKey.Value (Option Nat) := do
  let template ← getTemplate current
  if template = none ∨ current ∈ seen then pure none
  else do
    let parentId ← getParentTemplateId current
    if parentId = 0 then pure (some depth) else next parentId

/-- The loop of the resolution, with `left` parents still allowed: the number of parents. -/
def resolveFrom : Nat → Nat → Nat → List Nat → Routine TemplateKey.Value (Option Nat)
  | 0, current, depth, seen => resolveRound current depth seen fun _ => pure none
  | left + 1, current, depth, seen =>
      resolveRound current depth seen fun parentId =>
        resolveFrom left parentId (depth + 1) (seen ++ [current])

/-- Resolves a template, if its chain is not too long, and keeps the result. -/
def resolveTemplate (templateId : Nat) : Routine TemplateKey.Value (Option ResolvedTemplate) := do
  let cached : Option ResolvedTemplate ← storageGet (.resolvedTemplate templateId)
  Tx.ifSomeElse cached (fun resolved => pure (some resolved)) do
    let template ← getTemplate templateId
    Tx.ifSomeElse template
      (fun template => do
        let depth ← resolveFrom (maxInheritanceDepth - 1) templateId 0 []
        Tx.ifSomeElse depth
          (fun depth => do
            let now ← ask (·.timestamp)
            let resolved : ResolvedTemplate :=
              ⟨templateId, template.name, template.data, depth, now⟩
            storageSet (.resolvedTemplate templateId) resolved
            pure (some resolved))
          (pure none))
      (pure none)

def invalidateTemplateCache (templateId : Nat) : Routine TemplateKey.Value Unit :=
  remove (.resolvedTemplate templateId)

/-- One round of the depth; `next` goes on with the parent. -/
def depthRound (current depth : Nat) (seen : List Nat)
    (next : Nat → Routine TemplateKey.Value Nat) : Routine TemplateKey.Value Nat :=
  if current ∈ seen then pure depth
  else do
    let parentId ← getParentTemplateId current
    if parentId = 0 then pure depth else next parentId

/-- The loop of the depth, with `left` parents still counted after the next one. -/
def depthFrom : Nat → Nat → Nat → List Nat → Routine TemplateKey.Value Nat
  | 0, current, depth, seen => depthRound current depth seen fun _ => pure (depth + 1)
  | left + 1, current, depth, seen =>
      depthRound current depth seen fun parentId =>
        depthFrom left parentId (depth + 1) (seen ++ [current])

def getInheritanceDepth (templateId : Nat) : Routine TemplateKey.Value Nat :=
  depthFrom (maxInheritanceDepth - 1) templateId 0 []

/-- The calls, by anyone: the module has no entry points of its own. -/
inductive Call
  | createTemplate (name data : Bytes) (parentTemplateId : Nat) (overrides : Bytes)
  | createInheritedTemplate (parentId : Nat) (overrides : Bytes)
  | resolveTemplate (templateId : Nat)
  | invalidateTemplateCache (templateId : Nat)

/-- Runs a call; a creation returns the number of the new template. -/
def exec : Call → Routine TemplateKey.Value (Option Nat)
  | .createTemplate name data parentTemplateId overrides => do
      let id ← createTemplate name data parentTemplateId overrides
      pure (some id)
  | .createInheritedTemplate parentId overrides => do
      let id ← createInheritedTemplate parentId overrides
      pure (some id)
  | .resolveTemplate templateId => do
      let _ ← resolveTemplate templateId
      pure none
  | .invalidateTemplateCache templateId => do
      invalidateTemplateCache templateId
      pure none

/-- A call with what it sees and what it returned. -/
structure Event where
  env : Env
  call : Call
  created : Option Nat

/-- A call that succeeds; one that fails changes nothing. -/
def Step (s : State) (k : Event) (t : State) : Prop := exec k.call k.env s = .ok (k.created, t)

/-! ## The chain of parents -/

def templateOf (s : State) (id : Nat) : Option Template := s.get (.template id)

/-- What `get_parent_template_id` returns. -/
def parentIdOf (s : State) (id : Nat) : Nat := (s.get (.templateParent id)).getD 0

/-- The parent of a template; 0 stands for none. -/
def parentOf (s : State) (id : Nat) : Option Nat :=
  if parentIdOf s id = 0 then none else some (parentIdOf s id)

def cachedOf (s : State) (id : Nat) : Option ResolvedTemplate := s.get (.resolvedTemplate id)

def countOf (s : State) : Nat := (s.get .templateCount).getD 0

/-- The parent that a creation asks for. -/
def Call.requested : Call → Option Nat
  | .createTemplate _ _ parentTemplateId _ =>
      if parentTemplateId = 0 then none else some parentTemplateId
  | .createInheritedTemplate parentId _ => some parentId
  | .resolveTemplate _ | .invalidateTemplateCache _ => none

/-- No template is above itself, and every template that has been created has the parent
that was asked for and resolves; its depth is the number of its ancestors. -/
structure Resolvable (ks : List Event) (s : State) : Prop where
  acyclic : ∀ id n, 0 < n → climb (parentOf s) n id ≠ some id
  recorded : ∀ k ∈ ks, ∀ id, k.created = some id → parentOf s id = k.call.requested
  resolves : ∀ k ∈ ks, ∀ id, k.created = some id → ∀ e, ∃ resolved t,
    resolveTemplate id e s = .ok (some resolved, t) ∧
      getInheritanceDepth id e s = .ok (resolved.depth, s) ∧
      Height (parentOf s) id resolved.depth

section Reads

variable {s : State} {k : TemplateKey} {v : k.Value} {id id' p : Nat} {template : Template}
  {resolved : ResolvedTemplate}

@[simp] theorem templateOf_put_self :
    templateOf (s.put (.template id) template) =
      Function.update (templateOf s) id (some template) := by
  funext id'
  by_cases h : id' = id
  · subst h
    simp [templateOf]
  · simp [templateOf, h]

@[simp] theorem templateOf_put (h : ∀ id, k ≠ .template id) :
    templateOf (s.put k v) = templateOf s :=
  funext fun id => Store.get_put_of_ne (h id).symm

theorem parentIdOf_put_self :
    parentIdOf (s.put (.templateParent id) p) = Function.update (parentIdOf s) id p := by
  funext id'
  by_cases h : id' = id
  · subst h
    simp [parentIdOf]
  · simp [parentIdOf, h]

theorem parentOf_put_self (hp : p ≠ 0) :
    parentOf (s.put (.templateParent id) p) = Function.update (parentOf s) id (some p) := by
  funext id'
  unfold parentOf
  rw [parentIdOf_put_self]
  by_cases h : id' = id
  · subst h
    rw [Function.update_self, Function.update_self, if_neg hp]
  · rw [Function.update_of_ne h, Function.update_of_ne h]

@[simp] theorem parentOf_put (h : ∀ id, k ≠ .templateParent id) :
    parentOf (s.put k v) = parentOf s := by
  funext id
  unfold parentOf parentIdOf
  rw [Store.get_put_of_ne (h id).symm]

@[simp] theorem cachedOf_put_self :
    cachedOf (s.put (.resolvedTemplate id) resolved) =
      Function.update (cachedOf s) id (some resolved) := by
  funext id'
  by_cases h : id' = id
  · subst h
    simp [cachedOf]
  · simp [cachedOf, h]

@[simp] theorem cachedOf_put (h : ∀ id, k ≠ .resolvedTemplate id) :
    cachedOf (s.put k v) = cachedOf s :=
  funext fun id => Store.get_put_of_ne (h id).symm

@[simp] theorem countOf_put_self {n : Nat} : countOf (s.put .templateCount n) = n := by
  rw [countOf, Store.get_put_self, Option.getD_some]

@[simp] theorem countOf_put (h : k ≠ .templateCount) : countOf (s.put k v) = countOf s := by
  rw [countOf, countOf, Store.get_put_of_ne h.symm]

theorem parentOf_eq_none : parentOf s id = none ↔ parentIdOf s id = 0 := by
  unfold parentOf
  split <;> simp [*]

theorem parentOf_eq_some : parentOf s id = some p ↔ parentIdOf s id = p ∧ p ≠ 0 := by
  unfold parentOf
  split
  · next h =>
    rw [h]
    constructor
    · intro hnone
      cases hnone
    · rintro ⟨rfl, hne⟩
      exact absurd rfl hne
  · next h =>
    rw [Option.some.injEq]
    constructor
    · rintro rfl
      exact ⟨rfl, h⟩
    · exact And.left

end Reads

/-! ## The loops -/

section Loops

variable {s t : State} {e : Env} {left current depth id height : Nat} {seen : List Nat}

theorem getParentTemplateId_ok :
    getParentTemplateId current e s = .ok (parentIdOf s current, s) := rfl

theorem getTemplate_ok : getTemplate current e s = .ok (templateOf s current, s) := rfl

/-- On a chain without repetition nothing that has been passed is met again. -/
theorem not_mem_seen (hacyclic : ∀ id n, 0 < n → climb (parentOf s) n id ≠ some id)
    (hseen : ∀ x ∈ seen, ∃ j < depth, climb (parentOf s) j id = some x)
    (hcurrent : climb (parentOf s) depth id = some current) : current ∉ seen := by
  intro hmem
  obtain ⟨j, hlt, hj⟩ := hseen current hmem
  obtain ⟨n, rfl⟩ := Nat.exists_eq_add_of_lt hlt
  rw [Nat.add_assoc, climb_add, hj] at hcurrent
  exact hacyclic current (n + 1) (Nat.succ_pos n) hcurrent

theorem seen_append (hseen : ∀ x ∈ seen, ∃ j < depth, climb (parentOf s) j id = some x)
    (hcurrent : climb (parentOf s) depth id = some current) :
    ∀ x ∈ seen ++ [current], ∃ j < depth + 1, climb (parentOf s) j id = some x := by
  intro x hx
  rcases List.mem_append.mp hx with hx | hx
  · obtain ⟨j, hlt, hj⟩ := hseen x hx
    exact ⟨j, Nat.lt_succ_of_lt hlt, hj⟩
  · obtain rfl := List.mem_singleton.mp hx
    exact ⟨depth, Nat.lt_succ_self depth, hcurrent⟩

theorem climb_next {p : Nat} (hcurrent : climb (parentOf s) depth id = some current)
    (hp : parentOf s current = some p) : climb (parentOf s) (depth + 1) id = some p := by
  rw [climb_add, hcurrent, Option.bind_some, climb_succ, hp]
  rfl

theorem checkRound_ok {childId : Nat} {next : Routine TemplateKey.Value CycleCheckResult}
    {r : CycleCheckResult} (hclean : r.hasCycle = false)
    (h : checkRound childId current seen next e s = .ok (r, t)) :
    current ≠ childId ∧ (current = 0 ∨ next e s = .ok (r, t)) := by
  unfold checkRound at h
  split at h
  · cases h
    cases hclean
  · next hne =>
    refine ⟨hne, ?_⟩
    split at h
    · next hzero => exact .inl hzero
    · exact .inr h

/-- The check passes only on a chain of at most `left` templates that avoids the child. -/
theorem checkFrom_ok {childId : Nat} {r : CycleCheckResult} (hclean : r.hasCycle = false)
    (hcurrent : current ≠ 0) (h : checkFrom childId left current seen e s = .ok (r, t)) :
    climb (parentOf s) left current = none ∧ ∀ j, climb (parentOf s) j current ≠ some childId := by
  induction left generalizing current seen with
  | zero =>
      rcases (checkRound_ok hclean h).2 with hzero | hnext
      · exact absurd hzero hcurrent
      · cases hnext
        cases hclean
  | succ left ih =>
      obtain ⟨hne, hzero | hnext⟩ := checkRound_ok hclean h
      · exact absurd hzero hcurrent
      split at hnext
      · cases hnext
        cases hclean
      rw [Tx.bind_of_ok getParentTemplateId_ok] at hnext
      cases hparent : parentOf s current with
      | none =>
          refine ⟨by rw [climb_succ, hparent, Option.bind_none], fun j hj => ?_⟩
          cases j with
          | zero => exact hne (Option.some.inj hj)
          | succ j =>
              rw [climb_succ, hparent] at hj
              cases hj
      | some p =>
          obtain ⟨rfl, hp⟩ := parentOf_eq_some.mp hparent
          obtain ⟨hbound, havoids⟩ := ih hp hnext
          refine ⟨by rw [climb_succ, hparent, Option.bind_some, hbound], fun j hj => ?_⟩
          cases j with
          | zero => exact hne (Option.some.inj hj)
          | succ j =>
              rw [climb_succ, hparent, Option.bind_some] at hj
              exact havoids j hj

/-- One round of the resolution at a template that is not met again. -/
theorem resolveRound_eq {next : Nat → Routine TemplateKey.Value (Option Nat)}
    (htemplate : templateOf s current ≠ none) (hnot : current ∉ seen) :
    resolveRound current depth seen next e s =
      match parentOf s current with
      | none => .ok (some depth, s)
      | some p => next p e s := by
  unfold resolveRound
  rw [Tx.bind_of_ok getTemplate_ok, if_neg (not_or.mpr ⟨htemplate, hnot⟩),
    Tx.bind_of_ok getParentTemplateId_ok]
  cases hparent : parentOf s current with
  | none =>
      rw [if_pos (parentOf_eq_none.mp hparent)]
      rfl
  | some p =>
      obtain ⟨rfl, hne⟩ := parentOf_eq_some.mp hparent
      rw [if_neg hne]

theorem depthRound_eq {next : Nat → Routine TemplateKey.Value Nat} (hnot : current ∉ seen) :
    depthRound current depth seen next e s =
      match parentOf s current with
      | none => .ok (depth, s)
      | some p => next p e s := by
  unfold depthRound
  rw [if_neg hnot, Tx.bind_of_ok getParentTemplateId_ok]
  cases hparent : parentOf s current with
  | none =>
      rw [if_pos (parentOf_eq_none.mp hparent)]
      rfl
  | some p =>
      obtain ⟨rfl, hne⟩ := parentOf_eq_some.mp hparent
      rw [if_neg hne]

/-- Where there is a parent, the height is that of the parent and one more. -/
theorem height_succ {p : Nat} (hparent : parentOf s current = some p)
    (h : Height (parentOf s) current height) :
    ∃ h', height = h' + 1 ∧ Height (parentOf s) p h' := by
  cases height with
  | zero =>
      have hnone := h.2
      rw [climb_succ, hparent] at hnone
      cases hnone
  | succ h' => exact ⟨h', rfl, (height_succ_iff hparent).mp h⟩

/-- The resolution walks a chain of existing templates to its end. -/
theorem resolveFrom_ok (hacyclic : ∀ id n, 0 < n → climb (parentOf s) n id ≠ some id)
    (hparents : ∀ id p, parentOf s id = some p → templateOf s p ≠ none)
    (htemplate : templateOf s current ≠ none)
    (hseen : ∀ x ∈ seen, ∃ j < depth, climb (parentOf s) j id = some x)
    (hcurrent : climb (parentOf s) depth id = some current)
    (hheight : Height (parentOf s) current height) (hleft : height ≤ left) :
    resolveFrom left current depth seen e s = .ok (some (depth + height), s) := by
  induction left generalizing current depth seen height with
  | zero =>
      obtain rfl := Nat.le_zero.mp hleft
      rw [resolveFrom, resolveRound_eq htemplate (not_mem_seen hacyclic hseen hcurrent)]
      cases hparent : parentOf s current with
      | none => rfl
      | some p =>
          obtain ⟨h', hh', -⟩ := height_succ hparent hheight
          cases hh'
  | succ left ih =>
      rw [resolveFrom, resolveRound_eq htemplate (not_mem_seen hacyclic hseen hcurrent)]
      cases hparent : parentOf s current with
      | none =>
          obtain rfl := hheight.unique (height_zero hparent)
          rfl
      | some p =>
          obtain ⟨h', rfl, hp⟩ := height_succ hparent hheight
          have hrest := ih (hparents current p hparent) (seen_append hseen hcurrent)
            (climb_next hcurrent hparent) hp (Nat.le_of_succ_le_succ hleft)
          rw [Nat.add_assoc, Nat.add_comm 1] at hrest
          exact hrest

/-- The depth counts the same chain. -/
theorem depthFrom_ok (hacyclic : ∀ id n, 0 < n → climb (parentOf s) n id ≠ some id)
    (hseen : ∀ x ∈ seen, ∃ j < depth, climb (parentOf s) j id = some x)
    (hcurrent : climb (parentOf s) depth id = some current)
    (hheight : Height (parentOf s) current height) (hleft : height ≤ left) :
    depthFrom left current depth seen e s = .ok (depth + height, s) := by
  induction left generalizing current depth seen height with
  | zero =>
      obtain rfl := Nat.le_zero.mp hleft
      rw [depthFrom, depthRound_eq (not_mem_seen hacyclic hseen hcurrent)]
      cases hparent : parentOf s current with
      | none => rfl
      | some p =>
          obtain ⟨h', hh', -⟩ := height_succ hparent hheight
          cases hh'
  | succ left ih =>
      rw [depthFrom, depthRound_eq (not_mem_seen hacyclic hseen hcurrent)]
      cases hparent : parentOf s current with
      | none =>
          obtain rfl := hheight.unique (height_zero hparent)
          rfl
      | some p =>
          obtain ⟨h', rfl, hp⟩ := height_succ hparent hheight
          have hrest := ih (seen_append hseen hcurrent) (climb_next hcurrent hparent) hp
            (Nat.le_of_succ_le_succ hleft)
          rw [Nat.add_assoc, Nat.add_comm 1] at hrest
          exact hrest

theorem resolveRound_some {next : Nat → Routine TemplateKey.Value (Option Nat)} {d : Nat}
    (h : resolveRound current depth seen next e s = .ok (some d, t)) :
    parentOf s current = none ∧ d = depth ∨
      ∃ p, parentOf s current = some p ∧ next p e s = .ok (some d, t) := by
  unfold resolveRound at h
  rw [Tx.bind_of_ok getTemplate_ok] at h
  split at h
  · cases h
  rw [Tx.bind_of_ok getParentTemplateId_ok] at h
  split at h
  · next hzero =>
    cases h
    exact .inl ⟨parentOf_eq_none.mpr hzero, rfl⟩
  · next hne => exact .inr ⟨_, parentOf_eq_some.mpr ⟨rfl, hne⟩, h⟩

/-- A resolution that ends has met at most `left` parents. -/
theorem resolveFrom_short {d : Nat}
    (h : resolveFrom left current depth seen e s = .ok (some d, t)) :
    climb (parentOf s) (left + 1) current = none := by
  induction left generalizing current depth seen with
  | zero =>
      rcases resolveRound_some h with ⟨hparent, -⟩ | ⟨p, -, hnext⟩
      · rw [climb_succ, hparent, Option.bind_none]
      · cases hnext
  | succ left ih =>
      rcases resolveRound_some h with ⟨hparent, -⟩ | ⟨p, hparent, hnext⟩
      · rw [climb_succ, hparent, Option.bind_none]
      · rw [climb_succ, hparent, Option.bind_some, ih hnext]

end Loops

/-! ## What a step does -/

def Call.Creates : Call → Prop
  | .createTemplate .. | .createInheritedTemplate .. => True
  | .resolveTemplate _ | .invalidateTemplateCache _ => False

/-- The steps that leave every template resolvable. The next number is new unless it is
`u64::MAX`, which is given out again and again. -/
structure Safe (s : State) (k : Event) : Prop where
  fresh : k.call.Creates →
    templateOf s (countOf s) = none ∨ parentOf s (countOf s) = k.call.requested
  numbered : k.call.requested ≠ some 0
  short : ∀ p, k.call.requested = some p → climb (parentOf s) (maxInheritanceDepth - 1) p = none

/-- `t` is `s` with a new template `id`, a child of `p` unless `p` is 0. -/
structure Created (p id : Nat) (s t : State) : Prop where
  id_eq : id = countOf s
  checked : p ≠ 0 → templateOf s p ≠ none ∧ climb (parentOf s) maxInheritanceDepth p = none ∧
    ∀ j, climb (parentOf s) j p ≠ some id
  template_eq : ∃ template, templateOf t = Function.update (templateOf s) id (some template)
  parent_eq : parentOf t =
    if p = 0 then parentOf s else Function.update (parentOf s) id (some p)
  cached_eq : cachedOf t = cachedOf s
  count_eq : countOf t = saturatingAdd64 id 1

/-- `t` has the templates of `s`; a new resolution has been walked. -/
structure Walked (s t : State) : Prop where
  template_eq : templateOf t = templateOf s
  parent_eq : parentOf t = parentOf s
  count_eq : countOf t = countOf s
  cached : ∀ id r, cachedOf t id = some r → cachedOf s id = some r ∨ templateOf s id ≠ none ∧
    ∃ e, resolveFrom (maxInheritanceDepth - 1) id 0 [] e s = .ok (some r.depth, s)

/-- What a call does that succeeds. -/
inductive Effect (s t : State) : Call → Option Nat → Prop
  | created {name data overrides : Bytes} {p id : Nat} (h : Created p id s t) :
      Effect s t (.createTemplate name data p overrides) (some id)
  | inherited {overrides : Bytes} {p id : Nat} (h : Created p id s t) :
      Effect s t (.createInheritedTemplate p overrides) (some id)
  | resolved {id : Nat} (h : Walked s t) : Effect s t (.resolveTemplate id) none
  | invalidated {id : Nat} (h : Walked s t) : Effect s t (.invalidateTemplateCache id) none

section Steps

variable {ks : List Event} {s t : State} {e : Env} {k : Event} {p id : Nat}

@[simp] theorem wp_getTemplate {Q : Option Template → State → Prop} :
    wp (getTemplate id) Q e s ↔ Q (templateOf s id) s :=
  wp_load

@[simp] theorem wp_getParentTemplateId {Q : Nat → State → Prop} :
    wp (getParentTemplateId id) Q e s ↔ Q (parentIdOf s id) s := by
  rw [getParentTemplateId, Tx.wp_bind, wp_load, Tx.wp_pure, parentIdOf]

theorem checkFrom_readOnly {childId left current : Nat} {visited : List Nat} :
    Tx.ReadOnly (checkFrom childId left current visited) := by
  induction left generalizing current visited with
  | zero =>
      intro e s
      simp only [checkFrom, checkRound, Tx.wp_ite, Tx.wp_pure, implies_true, and_self]
  | succ left ih =>
      intro e s
      simp only [checkFrom, checkRound, Tx.wp_ite, Tx.wp_bind, Tx.wp_pure, wp_getParentTemplateId,
        implies_true, true_and]
      exact fun _ _ _ => ih e s

theorem resolveFrom_readOnly {left current depth : Nat} {seen : List Nat} :
    Tx.ReadOnly (resolveFrom left current depth seen) := by
  induction left generalizing current depth seen with
  | zero =>
      intro e s
      simp only [resolveFrom, resolveRound, Tx.wp_bind, Tx.wp_ite, Tx.wp_pure, wp_getTemplate,
        wp_getParentTemplateId, implies_true, and_self]
  | succ left ih =>
      intro e s
      simp only [resolveFrom, resolveRound, Tx.wp_bind, Tx.wp_ite, Tx.wp_pure, wp_getTemplate,
        wp_getParentTemplateId, implies_true, true_and]
      exact fun _ _ => ih e s

theorem createTemplate_wp {name data overrides : Bytes} :
    wp (createTemplate name data p overrides) (fun id t => Created p id s t) e s := by
  simp only [createTemplate, checkInheritanceCycle, Tx.wp_bind, Tx.wp_onlyIf, Tx.wp_pure, wp_load,
    wp_getTemplate, wp_require, Tx.wp_ask, wp_save, checkFrom_readOnly.wp_iff]
  constructor
  · intro hpos hparent result hresult hclean
    have hp : p ≠ 0 := Nat.ne_of_gt hpos
    refine ⟨fun _ => ?_, fun hzero => absurd hpos hzero⟩
    refine ⟨rfl, fun _ => ⟨?_, checkFrom_ok hclean hp hresult⟩, ?_, ?_, ?_, ?_⟩
    · exact Option.isSome_iff_ne_none.mp hparent
    · exact ⟨⟨countOf s, name, data, p, overrides, e.timestamp⟩, by simp [countOf]⟩
    · simp [parentOf_put_self hp, hp]
    · simp
    · simp [countOf]
  · intro hzero
    obtain rfl := Nat.le_zero.mp (Nat.le_of_not_lt hzero)
    refine ⟨fun hpos => absurd hpos hzero, fun _ => ⟨rfl, fun hp => absurd rfl hp, ?_, ?_, ?_, ?_⟩⟩
    · exact ⟨⟨countOf s, name, data, 0, overrides, e.timestamp⟩, by simp [countOf]⟩
    · simp
    · simp
    · simp [countOf]

theorem createInheritedTemplate_wp {overrides : Bytes} :
    wp (createInheritedTemplate p overrides) (fun id t => Created p id s t) e s := by
  simp only [createInheritedTemplate, Tx.wp_bind, Tx.wp_fromSome, wp_getTemplate]
  exact fun _ _ => createTemplate_wp

theorem Walked.refl : Walked s s :=
  ⟨rfl, rfl, rfl, fun _ _ hr => .inl hr⟩

theorem resolveTemplate_wp :
    wp (resolveTemplate id) (fun _ t => Walked s t) e s := by
  simp only [resolveTemplate, Tx.wp_bind, Tx.wp_ifSomeElse, Tx.wp_pure, wp_load, wp_getTemplate,
    Tx.wp_ask, wp_save, resolveFrom_readOnly.wp_iff]
  refine ⟨fun _ _ => .refl, fun _ => ⟨fun template htemplate depth hdepth => ?_, fun _ => .refl⟩⟩
  refine ⟨?_, fun _ => .refl⟩
  rintro d rfl
  refine ⟨by simp, by simp, by simp, fun id' r hr => ?_⟩
  rw [cachedOf_put_self] at hr
  by_cases heq : id' = id
  · subst heq
    rw [Function.update_self] at hr
    obtain rfl := Option.some.inj hr
    exact .inr ⟨by simp [htemplate], e, hdepth⟩
  · rw [Function.update_of_ne heq] at hr
    exact .inl hr

theorem resolveTemplate_of_cached {r : ResolvedTemplate} (h : cachedOf s id = some r) :
    resolveTemplate id e s = .ok (some r, s) := by
  rw [resolveTemplate, Tx.bind_of_ok (ok_load.mpr ⟨h, rfl⟩)]
  rfl

theorem resolveTemplate_of_walk {template : Template} {n : Nat} (hcached : cachedOf s id = none)
    (hfound : templateOf s id = some template)
    (hwalk : resolveFrom (maxInheritanceDepth - 1) id 0 [] e s = .ok (some n, s)) :
    resolveTemplate id e s = .ok (some ⟨id, template.name, template.data, n, e.timestamp⟩,
      s.put (.resolvedTemplate id) ⟨id, template.name, template.data, n, e.timestamp⟩) := by
  rw [resolveTemplate, Tx.bind_of_ok (ok_load.mpr ⟨hcached, rfl⟩)]
  show (getTemplate id >>= _) e s = _
  rw [Tx.bind_of_ok getTemplate_ok, hfound]
  show (resolveFrom (maxInheritanceDepth - 1) id 0 [] >>= _) e s = _
  rw [Tx.bind_of_ok hwalk]
  rfl

/-- What is found but not in the cache has been walked. -/
theorem walk_of_resolveTemplate {r : ResolvedTemplate} (hcached : cachedOf s id = none)
    (h : resolveTemplate id e s = .ok (some r, t)) :
    resolveFrom (maxInheritanceDepth - 1) id 0 [] e s = .ok (some r.depth, s) := by
  have hwp : wp (resolveTemplate id) (fun found _ => ∀ r, found = some r →
      resolveFrom (maxInheritanceDepth - 1) id 0 [] e s = .ok (some r.depth, s)) e s := by
    simp only [resolveTemplate, Tx.wp_bind, Tx.wp_ifSomeElse, Tx.wp_pure, wp_load, wp_getTemplate,
      Tx.wp_ask, wp_save, resolveFrom_readOnly.wp_iff]
    refine ⟨fun r' hr' => ?_, fun _ => ⟨fun template _ depth hdepth => ⟨?_, ?_⟩, ?_⟩⟩
    · cases hcached.symm.trans hr'
    · rintro d rfl r ⟨⟩
      exact hdepth
    · rintro _ r ⟨⟩
    · rintro _ r ⟨⟩
  exact hwp (some r) t h r rfl

theorem invalidateTemplateCache_wp :
    wp (invalidateTemplateCache id) (fun _ t => Walked s t) e s := by
  rw [invalidateTemplateCache, wp_remove]
  have hother : ∀ k, k ≠ TemplateKey.resolvedTemplate id →
      Store.get (s.erase (.resolvedTemplate id)) k = s.get k :=
    fun k hk => Store.get_erase_of_ne hk
  refine ⟨funext fun _ => hother _ (by simp), funext fun _ => ?_, ?_, fun id' r hr => .inl ?_⟩
  · unfold parentOf parentIdOf
    rw [hother _ (by simp)]
  · unfold countOf
    rw [hother _ (by simp)]
  · unfold cachedOf at hr
    by_cases heq : id' = id
    · subst heq
      rw [Store.get_erase_self] at hr
      cases hr
    · rwa [hother _ (by simpa using heq)] at hr

theorem step_effect (h : Step s k t) : Effect s t k.call k.created := by
  obtain ⟨e, call, created⟩ := k
  have hwp : wp (exec call) (fun created t => Effect s t call created) e s := by
    cases call with
    | createTemplate name data p overrides =>
        simp only [exec, Tx.wp_bind, Tx.wp_pure]
        exact Tx.wp_mono createTemplate_wp fun _ _ => .created
    | createInheritedTemplate p overrides =>
        simp only [exec, Tx.wp_bind, Tx.wp_pure]
        exact Tx.wp_mono createInheritedTemplate_wp fun _ _ => .inherited
    | resolveTemplate id =>
        simp only [exec, Tx.wp_bind, Tx.wp_pure]
        exact Tx.wp_mono resolveTemplate_wp fun _ _ => .resolved
    | invalidateTemplateCache id =>
        simp only [exec, Tx.wp_bind, Tx.wp_pure]
        exact Tx.wp_mono invalidateTemplateCache_wp fun _ _ => .invalidated
  exact hwp created t h

/-! ## The invariant -/

/-- What holds of the templates that the calls `ks` have created. -/
structure Chained (ks : List Event) (s : State) : Prop where
  parents : ∀ id p, parentOf s id = some p → templateOf s id ≠ none ∧ templateOf s p ≠ none
  bounded : ∀ id, climb (parentOf s) maxInheritanceDepth id = none
  cached : ∀ id r, cachedOf s id = some r →
    templateOf s id ≠ none ∧ Height (parentOf s) id r.depth
  recorded : ∀ k ∈ ks, ∀ id, k.created = some id →
    templateOf s id ≠ none ∧ parentOf s id = k.call.requested
  made : ∀ id, templateOf s id ≠ none → ∃ k ∈ ks, k.created = some id
  numbers : ∀ id, templateOf s id ≠ none → id < countOf s ∨ countOf s = u64Max

theorem chained_empty : Chained [] .empty where
  parents _ _ h := by cases h
  bounded _ := rfl
  cached _ _ h := by cases h
  recorded _ h := by cases h
  made _ h := absurd rfl h
  numbers _ h := absurd rfl h

theorem Chained.acyclic (hs : Chained ks s) (id n : Nat) (hn : 0 < n) :
    climb (parentOf s) n id ≠ some id :=
  climb_ne_self (hs.bounded id) hn

/-- What a resolution that is not found in the cache has counted. -/
theorem Chained.height (hs : Chained ks s) (htemplate : templateOf s id ≠ none) {n : Nat} :
    resolveFrom (maxInheritanceDepth - 1) id 0 [] e s = .ok (some n, s) ↔
      Height (parentOf s) id n := by
  obtain ⟨m, hlt, hm⟩ := exists_height (hs.bounded id)
  have hwalk : resolveFrom (maxInheritanceDepth - 1) id 0 [] e s = .ok (some (0 + m), s) :=
    resolveFrom_ok hs.acyclic (fun id p hp => (hs.parents id p hp).2) htemplate
      (fun x hx => by cases hx) climb_zero hm (Nat.le_pred_of_lt hlt)
  rw [Nat.zero_add] at hwalk
  constructor
  · intro h
    cases hwalk.symm.trans h
    exact hm
  · intro h
    rw [← hm.unique h]
    exact hwalk

theorem Chained.resolvable (hs : Chained ks s) : Resolvable ks s := by
  refine ⟨hs.acyclic, fun k hk id hid => (hs.recorded k hk id hid).2, fun k hk id hid e => ?_⟩
  obtain ⟨htemplate, -⟩ := hs.recorded k hk id hid
  have hdepth : ∀ n, Height (parentOf s) id n → getInheritanceDepth id e s = .ok (n, s) := by
    intro n hn
    have hwalk : getInheritanceDepth id e s = .ok (0 + n, s) :=
      depthFrom_ok hs.acyclic (fun x hx => by cases hx) climb_zero hn
        (Nat.le_pred_of_lt (hn.lt_iff.mpr (hs.bounded id)))
    rwa [Nat.zero_add] at hwalk
  cases hcached : cachedOf s id with
  | some r =>
      obtain ⟨-, hheight⟩ := hs.cached id r hcached
      exact ⟨r, s, resolveTemplate_of_cached hcached, hdepth r.depth hheight, hheight⟩
  | none =>
      obtain ⟨n, -, hheight⟩ := exists_height (hs.bounded id)
      obtain ⟨template, hfound⟩ := Option.ne_none_iff_exists'.mp htemplate
      have hwalk := resolveTemplate_of_walk hcached hfound
        ((hs.height (e := e) htemplate).mpr hheight)
      exact ⟨_, _, hwalk, hdepth n hheight, hheight⟩

/-- The chain of a template consists of templates. -/
theorem Chained.chain (hs : Chained ks s) {n x : Nat} (htemplate : templateOf s id ≠ none)
    (h : climb (parentOf s) n id = some x) : templateOf s x ≠ none := by
  cases n with
  | zero =>
      obtain rfl := Option.some.inj h
      exact htemplate
  | succ n =>
      obtain ⟨b, -, hb⟩ := climb_succ_last h
      exact (hs.parents b x hb).2

/-- No chain leads to a number without a template. -/
theorem Chained.avoids (hs : Chained ks s) {n x : Nat} (hnone : templateOf s id = none)
    (h : climb (parentOf s) n x = some id) : n = 0 := by
  cases n with
  | zero => rfl
  | succ n =>
      obtain ⟨b, -, hb⟩ := climb_succ_last h
      exact absurd hnone (hs.parents b id hb).2

section Creation

variable {r : Option Nat}

theorem Created.parent_self (hs : Chained ks s) (h : Created p id s t)
    (hr : r = if p = 0 then none else some p)
    (hfresh : templateOf s id = none ∨ parentOf s id = r) : parentOf t id = r := by
  rw [h.parent_eq, hr]
  split
  · next hp =>
    rw [if_pos hp] at hr
    subst hr
    rcases hfresh with hnone | hsame
    · by_contra hparent
      obtain ⟨q, hq⟩ := Option.ne_none_iff_exists'.mp hparent
      exact (hs.parents id q hq).1 hnone
    · exact hsame
  · exact Function.update_self ..

/-- A creation changes no chain of a template there was. -/
theorem Created.climb_eq (hs : Chained ks s) (h : Created p id s t)
    (hr : r = if p = 0 then none else some p)
    (hfresh : templateOf s id = none ∨ parentOf s id = r) {n x : Nat}
    (htemplate : templateOf s x ≠ none) : climb (parentOf t) n x = climb (parentOf s) n x := by
  rw [h.parent_eq]
  split
  · rfl
  · next hp =>
    rw [if_neg hp] at hr
    subst hr
    rcases hfresh with hnone | hsame
    · exact climb_update_of_avoids fun k hk => hs.chain htemplate hk hnone
    · rw [← hsame, Function.update_eq_self]

theorem Created.bounded (hs : Chained ks s) (h : Created p id s t)
    (hr : r = if p = 0 then none else some p)
    (hfresh : templateOf s id = none ∨ parentOf s id = r)
    (hshort : ∀ p, r = some p → climb (parentOf s) (maxInheritanceDepth - 1) p = none) (x : Nat) :
    climb (parentOf t) maxInheritanceDepth x = none := by
  rw [h.parent_eq]
  split
  · exact hs.bounded x
  · next hp =>
    rw [if_neg hp] at hr
    rcases hfresh with hnone | hsame
    · refine climb_link_eq_none hs.bounded (h.checked hp).2.2 fun a i j b hi hj => ?_
      obtain rfl := hs.avoids hnone hi
      by_contra hlong
      have hlimit : maxInheritanceDepth = maxInheritanceDepth - 1 + 1 := rfl
      have hend : climb (parentOf s) j p = none := climb_eq_none_of_le (hshort p hr) (by omega)
      cases hend.symm.trans hj
    · rw [← hr, ← hsame, Function.update_eq_self]
      exact hs.bounded x

theorem Chained.created (hs : Chained ks s) (h : Created p id s t) (hk : k.created = some id)
    (hr : k.call.requested = if p = 0 then none else some p)
    (hfresh : templateOf s id = none ∨ parentOf s id = k.call.requested)
    (hshort : ∀ p, k.call.requested = some p →
      climb (parentOf s) (maxInheritanceDepth - 1) p = none) :
    Chained (k :: ks) t := by
  have hself := h.parent_self hs hr hfresh
  have hclimb := fun n x => h.climb_eq (n := n) (x := x) hs hr hfresh
  obtain ⟨template, htemplates⟩ := h.template_eq
  have hkept : ∀ x, templateOf s x ≠ none → templateOf t x ≠ none := by
    intro x hx
    rw [htemplates]
    by_cases heq : x = id
    · subst heq
      simp
    · rwa [Function.update_of_ne heq]
  have hnew : templateOf t id ≠ none := by simp [htemplates]
  have hother : ∀ x, x ≠ id → templateOf t x = templateOf s x := by
    intro x hx
    rw [htemplates, Function.update_of_ne hx]
  have hparent : ∀ x, x ≠ id → parentOf t x = parentOf s x := by
    intro x hx
    rw [h.parent_eq]
    split
    · rfl
    · exact Function.update_of_ne hx _ _
  refine ⟨fun x q hq => ?_, h.bounded hs hr hfresh hshort, fun x c hc => ?_, ?_, fun x hx => ?_,
    fun x hx => ?_⟩
  · by_cases heq : x = id
    · subst heq
      rw [hself, hr] at hq
      split at hq
      · cases hq
      · next hp =>
        obtain rfl := Option.some.inj hq
        exact ⟨hnew, hkept p (h.checked hp).1⟩
    · rw [hparent x heq] at hq
      obtain ⟨hx, hq'⟩ := hs.parents x q hq
      exact ⟨hkept x hx, hkept q hq'⟩
  · rw [h.cached_eq] at hc
    obtain ⟨hx, hheight⟩ := hs.cached x c hc
    refine ⟨hkept x hx, ?_⟩
    unfold Height
    rw [hclimb _ x hx, hclimb _ x hx]
    exact hheight
  · refine List.forall_mem_cons.mpr ⟨fun x hx => ?_, fun k' hk' x hx => ?_⟩
    · obtain rfl := Option.some.inj (hk.symm.trans hx)
      exact ⟨hnew, hself⟩
    · obtain ⟨hx', hrecorded⟩ := hs.recorded k' hk' x hx
      refine ⟨hkept x hx', ?_⟩
      have hone := hclimb 1 x hx'
      rw [climb_succ, climb_succ, ← hrecorded] at *
      simpa [climb] using hone
  · by_cases heq : x = id
    · subst heq
      exact ⟨k, List.mem_cons_self, hk⟩
    · rw [hother x heq] at hx
      obtain ⟨k', hk', hx'⟩ := hs.made x hx
      exact ⟨k', List.mem_cons_of_mem k hk', hx'⟩
  · rw [h.count_eq, saturatingAdd64]
    by_cases heq : x = id
    · omega
    · rw [hother x heq] at hx
      have hid := h.id_eq
      rcases hs.numbers x hx with hlt | hfull <;> omega

theorem Created.resolvable_iff (hs : Chained ks s) (h : Created p id s t)
    (hk : k.created = some id) (hr : k.call.requested = if p = 0 then none else some p) :
    Resolvable (k :: ks) t ↔
      (templateOf s id = none ∨ parentOf s id = k.call.requested) ∧
        ∀ p, k.call.requested = some p → climb (parentOf s) (maxInheritanceDepth - 1) p = none := by
  constructor
  · intro hres
    have hnow := hres.recorded k List.mem_cons_self id hk
    have hfresh : templateOf s id = none ∨ parentOf s id = k.call.requested := by
      by_cases htemplate : templateOf s id = none
      · exact .inl htemplate
      · obtain ⟨k', hk', hmade⟩ := hs.made id htemplate
        have hbefore := (hs.recorded k' hk' id hmade).2
        have hafter := hres.recorded k' (List.mem_cons_of_mem k hk') id hmade
        exact .inr (hbefore.trans (hafter.symm.trans hnow))
    refine ⟨hfresh, fun q hq => ?_⟩
    have hp : p ≠ 0 := by
      rintro rfl
      cases hr.symm.trans hq
    rw [if_neg hp] at hr
    obtain rfl := Option.some.inj (hr.symm.trans hq)
    rcases hfresh with hnone | hsame
    · obtain ⟨r, u, hresolve, -, -⟩ := hres.resolves k List.mem_cons_self id hk k.env
      have hcached : cachedOf t id = none := by
        rw [h.cached_eq]
        by_contra hsome
        obtain ⟨r, hr⟩ := Option.ne_none_iff_exists'.mp hsome
        exact (hs.cached id r hr).1 hnone
      have hwalked := resolveFrom_short (walk_of_resolveTemplate hcached hresolve)
      rw [climb_succ, hnow, hq, Option.bind_some,
        h.climb_eq (r := some p) hs (if_neg hp).symm (.inl hnone) (h.checked hp).1] at hwalked
      exact hwalked
    · have hbounded := hs.bounded id
      have hlimit : maxInheritanceDepth = maxInheritanceDepth - 1 + 1 := rfl
      rwa [hlimit, climb_succ, hsame, hq, Option.bind_some] at hbounded
  · rintro ⟨hfresh, hshort⟩
    exact (hs.created h hk hr hfresh hshort).resolvable

theorem Chained.walked (hs : Chained ks s) (h : Walked s t) (hk : k.created = none) :
    Chained (k :: ks) t := by
  refine ⟨?_, ?_, fun id r hr => ?_, ?_, fun id hid => ?_, ?_⟩
  · rw [h.parent_eq, h.template_eq]
    exact hs.parents
  · rw [h.parent_eq]
    exact hs.bounded
  · rw [h.parent_eq, h.template_eq]
    rcases h.cached id r hr with hold | ⟨htemplate, e, hwalk⟩
    · exact hs.cached id r hold
    · exact ⟨htemplate, (hs.height htemplate).mp hwalk⟩
  · rw [h.parent_eq, h.template_eq]
    refine List.forall_mem_cons.mpr ⟨fun id hid => ?_, hs.recorded⟩
    cases hk.symm.trans hid
  · rw [h.template_eq] at hid
    obtain ⟨k', hk', hx⟩ := hs.made id hid
    exact ⟨k', List.mem_cons_of_mem k hk', hx⟩
  · rw [h.count_eq, h.template_eq]
    exact hs.numbers

end Creation

/-- The steps that leave every template resolvable. -/
theorem resolvable_iff_safe (hs : Chained ks s) (hstep : Step s k t) :
    Resolvable (k :: ks) t ↔ Safe s k := by
  obtain ⟨e, call, created⟩ := k
  cases step_effect hstep with
  | @created name data overrides p id h =>
      rw [h.resolvable_iff hs rfl rfl, h.id_eq]
      constructor
      · rintro ⟨hfresh, hshort⟩
        refine ⟨fun _ => hfresh, ?_, hshort⟩
        show (if p = 0 then none else some p) ≠ some 0
        intro hzero
        split at hzero
        · cases hzero
        · next hp => exact hp (Option.some.inj hzero)
      · intro hsafe
        exact ⟨hsafe.fresh trivial, hsafe.short⟩
  | @inherited overrides p id h =>
      by_cases hp : p = 0
      · subst hp
        refine iff_of_false (fun hres => ?_) fun hsafe => hsafe.numbered rfl
        exact (parentOf_eq_some.mp (hres.recorded _ List.mem_cons_self id rfl)).2 rfl
      · rw [h.resolvable_iff hs rfl (if_neg hp).symm, h.id_eq]
        constructor
        · rintro ⟨hfresh, hshort⟩
          exact ⟨fun _ => hfresh, fun hzero => hp (Option.some.inj hzero), hshort⟩
        · intro hsafe
          exact ⟨hsafe.fresh trivial, hsafe.short⟩
  | resolved hwalked =>
      exact iff_of_true (hs.walked hwalked rfl).resolvable ⟨nofun, nofun, nofun⟩
  | invalidated hwalked =>
      exact iff_of_true (hs.walked hwalked rfl).resolvable ⟨nofun, nofun, nofun⟩

theorem Chained.step (hs : Chained ks s) (hstep : Step s k t) (hsafe : Safe s k) :
    Chained (k :: ks) t := by
  obtain ⟨e, call, created⟩ := k
  cases step_effect hstep with
  | @created name data overrides p id h =>
      have hid := h.id_eq
      exact hs.created h rfl rfl (hid ▸ hsafe.fresh trivial) hsafe.short
  | @inherited overrides p id h =>
      have hid := h.id_eq
      have hp : p ≠ 0 := by
        rintro rfl
        exact hsafe.numbered rfl
      exact hs.created h rfl (if_neg hp).symm (hid ▸ hsafe.fresh trivial) hsafe.short
  | resolved hwalked => exact hs.walked hwalked rfl
  | invalidated hwalked => exact hs.walked hwalked rfl

/-- In every run in which no template inherits from template 0 or has more than 15
ancestors, and no number is given out twice, every template is resolvable; a step keeps
this exactly if it is such a step, and numbers below `u64::MAX` are new. -/
theorem templates_resolvable (ks : List Event) (s : State)
    (hrun : Run (Guarded Step Safe) .empty ks s) :
    Resolvable ks s ∧ (∀ k t, Step s k t → (Resolvable (k :: ks) t ↔ Safe s k)) ∧
      (countOf s < u64Max → templateOf s (countOf s) = none) := by
  have hs : Chained ks s := by
    refine hrun.invariantHistory chained_empty fun ks s k t hs hk => hs.step hk.1 hk.2
  refine ⟨hs.resolvable, fun k t => resolvable_iff_safe hs, fun hlt => ?_⟩
  by_contra htemplate
  rcases hs.numbers _ htemplate with hless | hfull
  · exact absurd hless (Nat.lt_irrefl _)
  · exact absurd hfull (Nat.ne_of_lt hlt)

end Steps

/-! ## Template 0 and a chain of 17 templates -/

/-- The events of the given calls, newest first, and the state after them, if all succeed. -/
def record : List (Env × Call) → Option (List Event × State)
  | [] => some ([], .empty)
  | (e, call) :: ks => (record ks).bind fun (events, s) =>
      match exec call e s with
      | .ok (created, t) => some (⟨e, call, created⟩ :: events, t)
      | .error _ => none

theorem run_of_record {ks : List (Env × Call)} {events : List Event} {s : State}
    (h : record ks = some (events, s)) : Run Step .empty events s := by
  induction ks generalizing events s with
  | nil =>
      cases h
      exact .start
  | cons k ks ih =>
      obtain ⟨⟨before, s⟩, hbefore, h⟩ := Option.bind_eq_some_iff.mp h
      cases hexec : exec k.2 k.1 s with
      | error err =>
          simp only [hexec] at h
          cases h
      | ok p =>
          simp only [hexec] at h
          cases h
          exact .next (ih hbefore) hexec

/-- A call at time 3. -/
def signed (call : Call) : Env × Call :=
  (⟨3, fun _ => true, ⟨.empty, ⟨fun _ _ => 0, []⟩⟩⟩, call)

/-- A root template. -/
def createRoot : Env × Call := signed (.createTemplate [] [] 0 [])

/-- Templates 0 and 1 without a parent, and from 2 to `n + 1` each the child of the one
before. -/
def lineage : Nat → List (Env × Call)
  | 0 => [createRoot, createRoot]
  | n + 1 => signed (.createTemplate [] [] (n + 1) []) :: lineage n

/-- Whether the newest template has the given number and does not resolve. -/
def unresolved (id : Nat) (events : List Event) (s : State) : Bool :=
  decide (events.head?.bind (·.created) = some id) &&
    match resolveTemplate id createRoot.1 s with
    | .ok (none, _) => true
    | _ => false

theorem not_resolvable_of_unresolved {id : Nat} {events : List Event} {s : State}
    (h : unresolved id events s = true) : ¬ Resolvable events s := by
  intro hres
  rw [unresolved, Bool.and_eq_true, decide_eq_true_eq] at h
  obtain ⟨hid, hnone⟩ := h
  obtain ⟨k, hk, hcreated⟩ := Option.bind_eq_some_iff.mp hid
  obtain ⟨r, t, hresolve, -, -⟩ :=
    hres.resolves k (List.mem_of_mem_head? hk) id hcreated createRoot.1
  rw [hresolve] at hnone
  cases hnone

/-- The state after a root template. -/
def rootState : State :=
  (Store.put .empty (.template 0) ⟨0, [], [], 0, [], 3⟩).put .templateCount 1

/-- The state after a second root template, and also after a child of template 0. -/
def secondState : State :=
  (rootState.put (.template 1) ⟨1, [], [], 0, [], 3⟩).put .templateCount 2

/-- The state after a child of template 1. -/
def childState : State :=
  (((secondState.put (.template 2) ⟨2, [], [], 1, [], 3⟩).put (.templateParent 2) 1).put
    (.templateOverrides 2) []).put .templateCount 3

/-- Template 2 inherits from template 1 and resolves. -/
theorem templates_resolvable_run : Resolvable
    [⟨createRoot.1, .createInheritedTemplate 1 [], some 2⟩, ⟨createRoot.1, createRoot.2, some 1⟩,
      ⟨createRoot.1, createRoot.2, some 0⟩] childState := by
  have hroot : Guarded Step Safe .empty ⟨createRoot.1, createRoot.2, some 0⟩ rootState :=
    ⟨rfl, fun _ => .inl rfl, nofun, nofun⟩
  have hsecond : Guarded Step Safe rootState ⟨createRoot.1, createRoot.2, some 1⟩ secondState :=
    ⟨rfl, fun _ => .inl rfl, nofun, nofun⟩
  have hchild : Guarded Step Safe secondState
      ⟨createRoot.1, .createInheritedTemplate 1 [], some 2⟩ childState := by
    refine ⟨rfl, fun _ => .inl rfl, fun hzero => ?_, fun p hp => ?_⟩
    · cases hzero
    · cases hp
      rfl
  exact (templates_resolvable _ _ (((Run.start.next hroot).next hsecond).next hchild)).1

/-- A child of template 0 has no parent. A chain from template 1 to template 17 is accepted
and does not resolve at its end. -/
theorem templates_unresolvable :
    (∃ events s, Run Step .empty events s ∧ ¬ Resolvable events s ∧
      ∃ k ∈ events, k.call = .createInheritedTemplate 0 [] ∧ k.created = some 1 ∧
        parentOf s 1 = none) ∧
    ∃ events s, record (lineage 16) = some (events, s) ∧ Run Step .empty events s ∧
      unresolved 17 events s = true ∧ ¬ Resolvable events s := by
  constructor
  · have hrun : Run Step .empty [⟨createRoot.1, .createInheritedTemplate 0 [], some 1⟩,
        ⟨createRoot.1, createRoot.2, some 0⟩] secondState :=
      .next (.next .start (show Step .empty _ rootState from rfl)) rfl
    refine ⟨_, _, hrun, fun hres => ?_, _, List.mem_cons_self, rfl, rfl, rfl⟩
    cases hres.recorded _ List.mem_cons_self 1 rfl
  · have hrecord : (record (lineage 16)).any (fun r => unresolved 17 r.1 r.2) = true := by
      decide +kernel
    obtain ⟨⟨events, s⟩, hsome, hunresolved⟩ := (Option.any_eq_true _ _).mp hrecord
    exact ⟨events, s, hsome, run_of_record hsome, hunresolved,
      not_resolvable_of_unresolved hunresolved⟩

end Heirloom.Modules.Templates
