-- What `disconnect` takes back of a `connect`, and what it leaves alone. It
-- compares the id of an output with the number of the inputs.
import StrangeIO.LinkGraph

namespace strangeio.component

namespace links

/-! ## Putting back -/

/-- A second change of an entry that puts back what it was. -/
theorem modify_modify_back {α : Type} {xs : List α} {i : Nat} {f g : α → α}
    (h : ∀ x, xs[i]? = some x → g (f x) = x) : (xs.modify i f).modify i g = xs := by
  rw [List.modify_modify_eq]
  apply List.ext_getElem?
  intro j
  rw [List.getElem?_modify]
  cases hx : xs[j]? with
  | none => rfl
  | some x =>
    apply congrArg some
    split
    · rename_i hj
      subst hj
      exact h x hx
    · rfl

variable {ι : Type} [DecidableEq ι]

/-- The output is not connected. -/
def Free (l : LinkOut ι) : Prop := l = { to_in := none, connected := false }

theorem set_out_back (s : links ι) {u : ι} {i : Nat} {l l' : LinkOut ι}
    (h : s.out u i = some l') : (s.set_out u i l).set_out u i l' = s := by
  unfold set_out
  rw [Function.update_idem, Function.update_self, modify_modify_back]
  · exact Function.update_eq_self u s
  · intro o ho
    have hlink : o.toLinkOut = l' := by
      unfold out at h
      rw [ho] at h
      exact Option.some.inj h
    rw [← hlink]

theorem set_in_back (s : links ι) {v : ι} {k : Nat} {b b' : Bool}
    (h : s.inp v k = some b') : (s.set_in v k b).set_in v k b' = s := by
  unfold set_in
  rw [Function.update_idem, Function.update_self, modify_modify_back]
  · exact Function.update_eq_self v s
  · intro input hinput
    have hflag : input.connected = b' := by
      unfold inp at h
      rw [hinput] at h
      exact Option.some.inj h
    rw [← hflag]

/-! ## The two calls -/

/-- A `connect` keeps the number of the inputs. -/
theorem connect_inputs (s : links ι) (u v : ι) (id : Int) (k : Nat) :
    ((s.connect u id (some (v, k))).2 u).m_inputs.length = (s u).m_inputs.length := by
  obtain ⟨-, heq⟩ | ⟨l, v', k', -, hin, heq⟩ := s.connect_cases u id (some (v, k))
  · rw [heq]
  · rw [heq]
    unfold set_in set_out
    by_cases hu : u = v'
    · subst hu
      simp
    · simp [hu]

/-- A `disconnect` takes back the `connect` of an output just when there is an input of
the id of the output. -/
theorem disconnect_connect {s : links ι} {u v : ι} {id : Int} {k : Nat}
    (hout : ∃ l, s.out u (uint id) = some l ∧ Free l) (hin : s.inp v k = some false) :
    (s.connect u id (some (v, k))).2.disconnect u id = some s ↔
      uint id < (s u).m_inputs.length := by
  obtain ⟨l, hout, rfl⟩ := hout
  have hinputs := s.connect_inputs u v id k
  obtain ⟨hnone, -⟩ | ⟨-, v', k', -, hsame, heq⟩ := s.connect_cases u id (some (v, k))
  · simp [hout] at hnone
  · cases hsame
    rw [heq] at hinputs ⊢
    have hlinked : ((s.set_out u (uint id) { to_in := some (v, k), connected := true }).set_in
        v k true).out u (uint id) = some { to_in := some (v, k), connected := true } := by
      rw [set_in_out, set_out_out, if_pos ⟨rfl, rfl⟩, hout]
      rfl
    obtain ⟨hle, hdis⟩ | ⟨hlt, hnull, -⟩ | ⟨hlt, l, v', k', hl, hto, hdis⟩ :=
      disconnect_cases ((s.set_out u (uint id)
        { to_in := some (v, k), connected := true }).set_in v k true) u id
    · rw [hinputs] at hle
      refine iff_of_false ?_ (by omega)
      -- the output stays linked
      intro hsome
      rw [hdis] at hsome
      rw [Option.some.inj hsome, hout] at hlinked
      cases hlinked
    · exact absurd (hnull _ hlinked) (by simp)
    · rw [hlinked] at hl
      cases hl
      cases hto
      rw [hinputs] at hlt
      refine iff_of_true (hdis.trans ?_) hlt
      rw [set_in_back _ (by rw [set_out_inp]; exact hin), set_out_back _ hout]

/-- Where there is no output of the id, or the output is not connected, a `disconnect`
leaves the links as they are just when there is no input of the id either. -/
theorem disconnect_idle {s : links ι} {u : ι} {id : Int}
    (h : ∀ l, s.out u (uint id) = some l → Free l) :
    s.disconnect u id = some s ↔ (s u).m_inputs.length ≤ uint id := by
  obtain ⟨hle, heq⟩ | ⟨hlt, -, heq⟩ | ⟨hlt, l, v, k, hl, hto, -⟩ := s.disconnect_cases u id
  · exact iff_of_true heq hle
  · refine iff_of_false ?_ (by omega)
    rw [heq]
    simp
  · rw [h l hl] at hto
    cases hto

/-- **`disconnect` undoes `connect` for the ids below the number of inputs, and does
nothing where nothing is connected for the other ids.** -/
theorem disconnect_follows_the_inputs (s : links ι) (u : ι) (id : Int) :
    (∀ v k, (∃ l, s.out u (uint id) = some l ∧ Free l) → s.inp v k = some false →
      ((s.connect u id (some (v, k))).2.disconnect u id = some s ↔
        uint id < (s u).m_inputs.length)) ∧
    ((∀ l, s.out u (uint id) = some l → Free l) →
      (s.disconnect u id = some s ↔ (s u).m_inputs.length ≤ uint id)) :=
  ⟨fun _ _ hout hin => disconnect_connect hout hin, disconnect_idle⟩

/-- A unit with an input takes back its link, and a source has none to take back. -/
theorem a_disconnect_undoes_the_link_of_a_unit :
    (three.connect .first 0 (some (.second, 0))).2.disconnect .first 0 = some three ∧
      three.disconnect .source 0 = some three :=
  ⟨((disconnect_follows_the_inputs three .first 0).1 .second 0
      ⟨_, rfl, rfl⟩ rfl).mpr (by decide),
    ((disconnect_follows_the_inputs three .source 0).2
      (fun l h => by cases h; rfl)).mpr (by decide)⟩

/-- The link of a source stays, and a unit with an input goes through a null pointer. -/
theorem a_disconnect_leaves_the_link_of_a_source :
    (three.connect .source 0 (some (.first, 0))).2.disconnect .source 0 ≠ some three ∧
      three.disconnect .first 0 = none := by
  constructor
  · intro h
    have hinputs : uint 0 < (three .source).m_inputs.length :=
      (disconnect_connect ⟨_, rfl, rfl⟩ rfl).mp h
    exact absurd hinputs (by decide)
  · rfl

end links

end strangeio.component
