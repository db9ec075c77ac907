import Ptr.Lib.After
import Ptr.Vcw.ClosedLoop

/-!
# Whose output a payload is

`Built H h p pods` reads off the questions and answers `h` that the payload in hand is `p`
and whose output it is: a fresh proposal or the answer to an escalation starts anew, and a
repair that is applied adds its Pod.  It does not look at the authors that the loop
carries along.

`Guarded H h` says of every escalation in `h` that gave a candidate away that all authors
of the candidate were asked for and stood right before, and again right after if anything
was verified later.
-/

namespace Ptr.Vcw

open Lib Event List

variable {P : Type} {H : Host P} {h : List (Event P)} {e : Event P}

/-! ### Histories -/

def Event.AnsweredBy (H : Host P) (before : List (Event P)) : Event P → Prop
  | .generation pod answer => answer = H.generation before pod
  | .sample c admissible answer => answer = H.sample before c admissible
  | .propose call answer => answer = H.propose before call
  | .repair call answer => answer = H.repair before call
  | .escalate call answer => answer = H.escalate before call
  | .verify value answer => answer = H.verify before value
  | .integrate author value report answer => answer = H.integrate before author value report

def Honest (H : Host P) (h : List (Event P)) : Prop := EachAfter (AnsweredBy H) h

def verified (h : List (Event P)) : List P :=
  h.filterMap fun
    | .verify value _ => some value
    | _ => none

def asked (P : Type) (authors : List PodRef) : List (Event P) :=
  authors.map fun a => .generation a.pod (some a.generation)

/-- Questions to the registry, the router and the workspace. -/
def Event.quiet : Event P → Bool
  | .generation _ _ | .sample _ _ _ | .integrate _ _ _ _ => true
  | _ => false

/-- Answers that leave the payload in hand as it is. -/
def Event.keeps (H : Host P) : Event P → Bool
  | .propose _ answer => answer.isNone
  | .escalate _ answer => answer.isNone
  | .repair call (some edited) => !H.confinedTo call.previous edited [call.code]
  | _ => true

theorem Event.keeps_of_quiet (h : e.quiet) : e.keeps H := by
  cases e with
  | generation | sample | integrate => rfl
  | propose | repair | escalate | verify => cases h

theorem verified_append (h h' : List (Event P)) : verified (h ++ h') = verified h ++ verified h' :=
  filterMap_append

def Event.mute : Event P → Bool
  | .verify _ _ => false
  | _ => true

theorem Event.mute_of_quiet (h : e.quiet) : e.mute := by
  cases e with
  | verify => cases h
  | generation | sample | integrate | propose | repair | escalate => rfl

theorem verified_mute (hm : ∀ e ∈ h, e.mute = true) : verified h = [] := by
  rw [verified, filterMap_eq_nil_iff]
  intro e he
  have hmute := hm e he
  cases e with
  | verify => cases hmute
  | generation | sample | integrate | propose | repair | escalate => rfl

/-! ### Payloads -/

inductive Built (H : Host P) : List (Event P) → P → List PodRef → Prop
  | proposed {h : List (Event P)} {call : ProposeCall} {p : P} :
      Built H (h ++ [.propose call (some p)]) p [call.pod]
  | escalated {h : List (Event P)} {call : EscalateCall P} {author : PodRef} {p : P} :
      Built H (h ++ [.escalate call (some (author, p))]) p [author]
  | repaired {h : List (Event P)} {call : RepairCall P} {edited : P} {pods : List PodRef}
      (hbuilt : Built H h call.previous pods)
      (hconfined : H.confinedTo call.previous edited [call.code]) :
      Built H (h ++ [.repair call (some edited)]) edited (pods ++ [call.pod])
  | kept {h : List (Event P)} {e : Event P} {p : P} {pods : List PodRef} (hbuilt : Built H h p pods)
    (hkeeps : e.keeps H) :
      Built H (h ++ [e]) p pods

/-- A payload in hand with Pods among its authors. -/
def Authored (H : Host P) (h : List (Event P)) (p : P) (authors : List PodRef) : Prop :=
  ∃ pods, Built H h p pods ∧ ∀ pod ∈ pods, pod ∈ authors

theorem Authored.kept {evs p authors} (ha : Authored H h p authors)
    (hevs : ∀ e ∈ evs, e.keeps H = true) : Authored H (h ++ evs) p authors := by
  induction evs using reverseRecOn with
  | nil => rwa [append_nil]
  | append_singleton evs e ih =>
    obtain ⟨pods, hbuilt, hpods⟩ := ih fun e he => hevs e (mem_append_left _ he)
    refine ⟨pods, ?_, hpods⟩
    rw [← append_assoc]
    exact hbuilt.kept (hevs e (mem_append_right _ (mem_singleton_self e)))

theorem Authored.quiet {evs p authors} (ha : Authored H h p authors)
    (hevs : ∀ e ∈ evs, e.quiet = true) : Authored H (h ++ evs) p authors :=
  ha.kept fun e he => keeps_of_quiet (hevs e he)

/-! ### Escalations -/

/-- The authors of what an escalation gave away were asked for right before, and right
after if `later` holds of what followed. -/
def EscalatesWell (H : Host P) (later : List (Event P) → Prop) (h : List (Event P)) : Prop :=
  ∀ before call answer after p, h = before ++ .escalate call answer :: after →
    call.previous = some p → ∃ authors, Authored H before p authors ∧ asked P authors <:+ before ∧
    (later after → asked P authors <+: after)

def Uses (h : List (Event P)) : Prop := verified h ≠ []

abbrev Guarded (H : Host P) (h : List (Event P)) : Prop := EscalatesWell H Uses h

abbrev Settled (H : Host P) (h : List (Event P)) : Prop := EscalatesWell H (fun _ => True) h

theorem settled_nil : Settled H [] := by
  intro before call answer after p hsplit
  cases before <;> cases hsplit

theorem Settled.guarded (hs : Settled H h) : Guarded H h := by
  intro before call answer after p hsplit hp
  obtain ⟨authors, hauthored, hsuffix, hafter⟩ := hs before call answer after p hsplit hp
  exact ⟨authors, hauthored, hsuffix, fun _ => hafter trivial⟩

def Event.gives : Event P → Bool
  | .escalate call _ => call.previous.isSome
  | _ => false

theorem Event.gives_of_quiet (h : e.quiet) : e.gives = false := by
  cases e with
  | escalate => cases h
  | generation | sample | integrate | propose | repair | verify => rfl

theorem Settled.append {evs} (hs : Settled H h) (hevs : ∀ e ∈ evs, e.gives = false) :
    Settled H (h ++ evs) := by
  intro before call answer after p hsplit hp
  rcases append_eq_append_iff.mp hsplit with ⟨mid, rfl, hrest⟩ | ⟨mid, rfl, hrest⟩
  · -- The escalation would be among the new events.
    have hgives := hevs (.escalate call answer) (by rw [hrest]; simp)
    rw [gives, hp] at hgives
    cases hgives
  · cases mid with
    | nil =>
      have hgives := hevs (.escalate call answer) (by rw [← nil_append evs, ← hrest]; simp)
      rw [gives, hp] at hgives
      cases hgives
    | cons e mid =>
      cases hrest
      obtain ⟨authors, hauthored, hsuffix, hafter⟩ := hs before call answer mid p rfl hp
      exact ⟨authors, hauthored, hsuffix, fun _ => (hafter trivial).trans (prefix_append _ _)⟩

theorem Settled.escalate {evs call answer later} (hs : Settled H h)
    (hgiven : ∀ p, call.previous = some p → ∃ authors, Authored H h p authors ∧
      asked P authors <:+ h ∧ (later evs → asked P authors <+: evs))
    (hevs : ∀ e ∈ evs, e.gives = false) :
    EscalatesWell H later (h ++ .escalate call answer :: evs) := by
  intro before call' answer' after p hsplit hp
  rcases append_eq_append_iff.mp hsplit with ⟨mid, rfl, hrest⟩ | ⟨mid, rfl, hrest⟩
  · cases mid with
    | nil =>
      cases hrest
      rw [append_nil]
      exact hgiven p hp
    | cons =>
      cases hrest
      have hgives := hevs (.escalate call' answer') (by simp)
      rw [gives, hp] at hgives
      cases hgives
  · cases mid with
    | nil =>
      cases hrest
      rw [append_nil] at hgiven
      exact hgiven p hp
    | cons e mid =>
      cases hrest
      obtain ⟨authors, hauthored, hsuffix, hafter⟩ := hs before call' answer' mid p rfl hp
      exact ⟨authors, hauthored, hsuffix, fun _ => (hafter trivial).trans (prefix_append _ _)⟩

end Ptr.Vcw
