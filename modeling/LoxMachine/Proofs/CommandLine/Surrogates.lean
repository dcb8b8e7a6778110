import LoxMachine.Proofs.Listing.Reached
import LoxMachine.Proofs.Machine.Trace
import LoxMachine.Proofs.Machine.Values
import LoxMachine.Proofs.Traversal

/-!
# Texts without surrogates

What is shown of a chunk are its name, its string constants, and otherwise words, numbers and
blanks. So if the name and the string constants have no surrogate, there is none in the listing, in
what a run records, and in what it returns.

    c.EncodablePool → name.Encodable → c.listing name = .ok text → text.Encodable
                                                                         (encodable_listing)
-/

namespace LoxMachine

open Str

namespace Value

/-- Only a string may be shown with a surrogate. -/
theorem encodable_shown {v : Value} (h : ∀ s, v = .str s → s.Encodable) : v.shown.Encodable := by
  cases v with
  | nil | num _ | list _ | dict _ => exact encodable_ofChars _
  | bool b => cases b <;> exact encodable_ofChars _
  | int i =>
    show (((Binary64.ofInt? i).map fun x => (displayNumber x : Str)).getD []).Encodable
    cases Binary64.ofInt? i with
    | none => exact encodable_nil
    | some x => exact encodable_ofChars _
  | str s => exact h s rfl

theorem eq_shown_of_display {v : Value} {text : Str} (h : v.display = .ok text) :
    text = v.shown := by
  unfold display at h
  unfold shown
  cases hv : v.display? with
  | none =>
    rw [hv] at h
    cases h
  | some t =>
    rw [hv] at h
    exact (Except.ok.inj h).symm

/-- A change of sign yields a number. -/
theorem kept_encodable_shown : Kept fun v => v.shown.Encodable where
  nil := encodable_ofChars _
  neg := by
    intro v w _ hw
    refine encodable_shown ?_
    rintro s rfl
    cases v <;> cases hw

end Value

/-- No string constant has a surrogate. -/
def Chunk.EncodablePool (c : Chunk) : Prop := ∀ s, .str s ∈ c.constants.toList → s.Encodable

theorem Chunk.EncodablePool.shown {c : Chunk} (h : c.EncodablePool) :
    ∀ v ∈ c.constants.toList, v.shown.Encodable := by
  intro v hv
  refine Value.encodable_shown ?_
  rintro s rfl
  exact h s hv

theorem Chunk.mem_of_constantAt {c : Chunk} {index : Int} {v : Value}
    (h : c.constantAt index = .ok v) : v ∈ c.constants.toList := by
  unfold constantAt at h
  split at h
  · cases h
  · split at h
    · next hv =>
      cases h
      exact Array.mem_toList_iff.mpr (Array.mem_of_getElem? hv)
    · cases h

namespace Listing

variable {c : Chunk} (h : c.EncodablePool)
include h

theorem encodable_constantBody {offset : Int} {b : Body} (hb : constantBody c offset = .ok b) :
    b.text.Encodable := by
  obtain ⟨index, -, hb⟩ := bind_eq_ok_iff.mp hb
  obtain ⟨v, hv, hb⟩ := bind_eq_ok_iff.mp hb
  obtain ⟨text, htext, hb⟩ := bind_eq_ok_iff.mp hb
  cases hb
  obtain rfl := Value.eq_shown_of_display htext
  have hshown := h.shown v (Chunk.mem_of_constantAt hv)
  exact encodable_append.mpr ⟨encodable_ofChars _, hshown⟩

theorem encodable_entry {offset : Int} {e : Entry} (he : entry c offset = .ok e) :
    e.text.Encodable := by
  have hbody : e.body.text.Encodable := by
    obtain ⟨-, ⟨hillegal, -⟩ | ⟨op, -, hplain | hconstant⟩⟩ := entry_cases he
    · rw [hillegal]
      exact encodable_ofChars _
    · rw [hplain]
      exact encodable_ofChars _
    · exact encodable_constantBody h hconstant
  exact encodable_append.mpr ⟨encodable_ofChars _, hbody⟩

theorem encodable_reachedFrom (offset : Int) : ∀ e ∈ reachedFrom c offset, e.text.Encodable := by
  induction offset using reachedFrom.induct (c := c) with
  | case1 offset hlt f hf =>
    rw [reachedFrom_of_error hf]
    exact List.forall_mem_nil _
  | case2 offset hlt e he hnext ih =>
    rw [reachedFrom_of_entry hlt he]
    exact List.forall_mem_cons.mpr ⟨encodable_entry h he, ih⟩
  | case3 offset hlt =>
    rw [reachedFrom_of_size_le (by omega)]
    exact List.forall_mem_nil _

/-- **Listings.** A listing has no surrogate but those of its name and the string constants. -/
theorem encodable_listing {name text : Str} (hname : name.Encodable)
    (hlisting : c.listing name = .ok text) : text.Encodable := by
  obtain ⟨es, hes, hrender⟩ := bind_eq_ok_iff.mp hlisting
  cases hrender
  have hreached := encodable_reachedFrom h 0
  rw [show reachedFrom c 0 = es from reached_of_entries hes] at hreached
  refine encodable_append.mpr ⟨?_, encodable_flatMap fun e he => ?_⟩
  · exact encodable_append.mpr
      ⟨encodable_append.mpr ⟨encodable_ofChars _, hname⟩, encodable_ofChars _⟩
  · exact encodable_append.mpr ⟨hreached e he, encodable_ofChars ['\n']⟩

end Listing

/-! ## Runs -/

theorem Event.encodable_render {e : Event} (htext : e.text.Encodable)
    (hstack : ∀ v ∈ e.stack, v.shown.Encodable) {text : Str} (h : e.render = .ok text) :
    text.Encodable := by
  obtain ⟨texts, hmapM, hrender⟩ := bind_eq_ok_iff.mp h
  cases hrender
  have hshown : ∀ t ∈ texts, t.Encodable := by
    refine forall_of_mapM_eq_ok (fun v hv t ht => ?_) hmapM
    rw [Value.eq_shown_of_display ht]
    exact hstack v hv
  refine encodable_append.mpr ⟨?_, htext⟩
  refine encodable_append.mpr ⟨encodable_append.mpr ⟨encodable_ofChars _, ?_⟩, encodable_ofChars _⟩
  refine encodable_flatMap fun t ht => ?_
  exact encodable_append.mpr
    ⟨encodable_append.mpr ⟨encodable_ofChars _, hshown t ht⟩, encodable_ofChars _⟩

namespace Machine

variable {c : Chunk} (hp : c.LoxPool) (h : c.EncodablePool)
include hp h

/-- What a run records are entries of the listing. -/
theorem encodable_event (name : Str) (tracing : Bool) :
    ∀ e ∈ (({ name, tracing } : Machine).run c.toSealed).1.events.toList, e.text.Encodable := by
  intro e he
  cases tracing with
  | false =>
    rw [run_of_not_tracing rfl] at he
    cases he
  | true =>
    rw [← recorded_run] at he
    have hentries := ((sound_fresh c.toSealed name).play hp.toSealed [.run]).agrees.isPrefix
    rw [Listing.reached_toSealed] at hentries
    obtain ⟨x, hx, hshown⟩ := List.mem_map.mp (hentries.subset (List.mem_map_of_mem he))
    rw [← show x.text = e.text from congrArg Prod.snd hshown]
    exact Listing.encodable_reachedFrom h 0 x hx

/-- **Runs.** A run shows no surrogate but those of the string constants. -/
theorem encodable_run (name : Str) (tracing : Bool) :
    let r := ({ name, tracing } : Machine).run c.toSealed
    (∀ texts, r.1.events.toList.mapM Event.render = .ok texts → ∀ t ∈ texts, t.Encodable) ∧
      ∀ v, r.2 = .ok v → v.shown.Encodable := by
  obtain ⟨hholds, hvalue, -⟩ :=
    (running_fresh (fun v => v.shown.Encodable) name tracing).run hp.toSealed
      Value.kept_encodable_shown h.shown
  refine ⟨fun texts => forall_of_mapM_eq_ok fun e he text htext => ?_, hvalue⟩
  exact e.encodable_render (encodable_event hp h name tracing e he) (hholds.events e he) htext

end Machine

end LoxMachine
