import Cron.Proofs.Expr.Reading
import Cron.Proofs.Schedule.Resolution
import Cron.Proofs.Schedule.Steps

namespace Cron

variable {s s' : Schedule} {c : Column} {part : Part} {id : Int} {text : Codes} {new : Shape}

-- Every number in a well-formed tree can be written.
theorem Expr.Fits.written_eq {ι : Type} {l : Layout} {pos : Position} {e : Expr ι}
    (h : e.Fits l c pos) : e.written = .ok e.cronText := by
  rw [Expr.written, if_pos]
  rw [Expr.isWritable, List.all_eq_true]
  intro p hp
  have ⟨pos, hf⟩ := h.exists_of_mem hp
  cases hf
  case value n ht _ =>
    have hl := ht.length_le
    rw [decide_eq_true_iff, Expr.literal, show n.natAbs = n.toNat by omega]
    exact hl.2
  all_goals simp [Expr.literal, Text.natDigits, Text.maxDigits]

namespace Schedule

open EditM

theorem written_eq (h : s.Sound) (c : Column) : s.written c = .ok (s.root c).cronText := by
  rw [written, (h.proper c).fits.written_eq]
  rfl

theorem readEdit_fits (h : s.readEdit c text = .ok new) : new.Fits s.layout c .root :=
  Layout.read_fits <| Except.mapError_eq_ok_iff.mp h

theorem add_keeps (h : s.Sound) (id : Int) (text : Codes) :
    (add id text).Keeps s fun _ s' => Turn s s' := by
  refine Keeps.ask fun (c, target) _ => Keeps.ask fun new hnew => Keeps.ask fun root hroot =>
    Keeps.ask fun _ _ => ?_
  cases hroot
  refine ((graft_gives h <| readEdit_fits hnew).bind fun holder s' ht => ?_).keeps
  exact Gives.ask (written_eq ht.sound c) <| Gives.ask rfl <| Gives.pure ht

theorem replaceBelow_keeps (h : s.Sound) (hp : part ∈ (s.root c).preorder) {holder : Holder}
    (hh : s.holderOf part = .ok holder) (hf : new.Fits s.layout c .root) :
    (replaceBelow c part new text holder).Keeps s fun _ s' => Turn s s' := by
  rcases h.holderOf_eq hp with ⟨rfl, he⟩ | ⟨whole, hw, hm, he⟩
  · cases hh.symm.trans he
    exact Keeps.ask fun _ _ => (replant_gives h hf).keeps
  · cases hh.symm.trans he
    exact Keeps.ask fun _ hok => Keeps.ask fun _ _ => (substitute_gives h hw hm hok hf).keeps

theorem replace_keeps (h : s.Sound) (id : Int) (text : Codes) :
    (replace id text).Keeps s fun _ s' => Turn s s' := by
  refine Keeps.ask fun (c, target) hr => Keeps.ask fun new hnew => Keeps.ask fun holder hh => ?_
  refine (replaceBelow_keeps h (h.mem_of_resolve hr) hh <| readEdit_fits hnew).bind ?_
  intro holder s' ht
  exact Gives.ask (written_eq ht.sound c) <| Gives.ask rfl <| Gives.pure ht

theorem removed_gives (ht : Turn s s') : (removed id c).Gives s' fun _ s' => Turn s s' :=
  Gives.ask (written_eq ht.sound c) <| Gives.ask rfl <| Gives.pure ht

theorem removeWithin_keeps (h : s.Sound) (steps : Nat) (id : Int) :
    (removeWithin steps id).Keeps s fun _ s' => Turn s s' := by
  induction steps generalizing id
  all_goals
    rw [removeWithin]
    refine Keeps.ask fun (c, target) hr => Keeps.ask fun holder hh => ?_
    have hp := h.mem_of_resolve hr
    rcases h.holderOf_eq hp with ⟨rfl, he⟩ | ⟨whole, hw, hm, he⟩
    · cases hh.symm.trans he
      exact ((replant_gives h <| by simp).bind fun _ _ ht => removed_gives ht).keeps
    cases hh.symm.trans he
    dsimp only
    split
    case isTrue hk =>
      have hr := ((h.proper c).fits.eq_of_kind_eq_list hw hk).symm
      cases whole <;> cases hk
      exact ((prune_gives h hr hm).bind fun _ _ ht => removed_gives ht).keeps
  case zero => exact .inl ⟨_, rfl⟩
  case succ => exact ‹∀ id, (removeWithin _ id).Keeps s _› _

end Schedule

open Schedule

-- An edit takes a sound schedule to a sound one, or fails without a trace.
theorem Edit.run_keeps (h : s.Sound) (e : Edit) : e.run.Keeps s fun _ s' => Turn s s' := by
  cases e
  case add id text      => exact add_keeps h id text
  case replace id text  => exact replace_keeps h id text
  case remove id        => exact EditM.Keeps.ask fun steps _ => removeWithin_keeps h steps id

theorem Schedule.Sound.after (h : s.Sound) (e : Edit) : Turn s (s.after e) := by
  rw [Schedule.after]
  rcases e.run_keeps h with ⟨err, he⟩ | ⟨receipt, s', hs, ht⟩
  · rw [he]
    exact h.turn
  · rw [hs]
    exact ht

end Cron
