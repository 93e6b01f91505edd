import Xv6.Virtio.Model

/-!
# Chains of descriptors

What `alloc3_desc` and `free_chain` do to the descriptors. `alloc3_desc` gives back what it took if
it cannot get three, and `free_chain` frees the three descriptors of a chain that is formatted as
`virtio_disk_rw` formats it.
-/

namespace Xv6

namespace Virtio

variable {s s' : State} {i j k p q b d : ℕ} {idx : Idx} {t : Thread} {pc : Pc}

@[simp] theorem thread_setThread_self : (s.setThread p t).thread p = t :=
  Function.update_self ..

@[simp] theorem thread_goto_self : (s.goto p pc).thread p = { s.thread p with pc } :=
  Function.update_self ..

theorem thread_goto_of_ne (h : q ≠ p) : (s.goto p pc).thread q = s.thread q :=
  Function.update_of_ne h ..

/-! ### Allocation -/

theorem allocDesc_eq_some (h : allocDesc s = some (i, s')) :
    i < num ∧ s.free i = true ∧ s' = { s with free := Function.update s.free i false } := by
  obtain ⟨j, hj, heq⟩ := Option.map_eq_some_iff.mp h
  rw [Prod.mk.injEq] at heq
  obtain ⟨rfl, rfl⟩ := heq
  exact ⟨List.mem_range.mp (List.mem_of_find?_eq_some hj), List.find?_some hj, rfl⟩

theorem freeDesc_eq (hi : i < num) (hf : s.free i = false) : freeDesc s i = some { s with
    desc := Function.update s.desc i {}
    free := Function.update s.free i true } := by
  rw [freeDesc, if_neg (not_le.mpr hi), if_neg (by rw [hf]; nofun)]

/-- `alloc3_desc` takes three free descriptors, or none. -/
inductive Allocated (s : State) : Option Idx × State → Prop
  /-- Those it took and gave back are free, but cleared. -/
  | none {desc : ℕ → Desc} (hdesc : ∀ d, s.free d = false → desc d = s.desc d) :
      Allocated s (none, { s with desc })
  | some {idx : Idx} {free : ℕ → Bool} (hnodup : idx.toList.Nodup)
      (hidx : ∀ d ∈ idx.toList, d < num ∧ s.free d = true)
      (hfree : ∀ d, free d = false ↔ s.free d = false ∨ d ∈ idx.toList) :
      Allocated s (some idx, { s with free })

/-- What is taken and given back is as it was. -/
theorem update_update_free {f : ℕ → Bool} (h : f i = true) :
    Function.update (Function.update f i false) i true = f := by
  rw [Function.update_idem, ← h, Function.update_eq_self]

theorem update_eq_false {f : ℕ → Bool} :
    Function.update f i false d = false ↔ f d = false ∨ d = i := by
  rw [Function.update_apply]
  split
  · rename_i h
    exact ⟨fun _ => Or.inr h, fun _ => rfl⟩
  · rename_i h
    exact ⟨Or.inl, fun hor => hor.resolve_right h⟩

theorem update_desc_of_free {f : ℕ → Bool} {desc desc' : ℕ → Desc}
    (hdesc : ∀ d, f d = false → desc' d = desc d) (hi : f i = true) :
    ∀ d, f d = false → Function.update desc' i {} d = desc d := by
  intro d hd
  have hne : d ≠ i := by
    rintro rfl
    rw [hi] at hd
    cases hd
  rw [Function.update_of_ne hne, hdesc d hd]

/-- `alloc3_desc` does not panic. -/
theorem alloc3Desc_spec (s : State) : ∃ r, alloc3Desc s = some r ∧ Allocated s r := by
  unfold alloc3Desc
  cases h₁ : allocDesc s with
  | none => exact ⟨_, rfl, .none fun d _ => rfl⟩
  | some r₁ =>
    obtain ⟨i, s₁⟩ := r₁
    obtain ⟨hi, hfi, rfl⟩ := allocDesc_eq_some h₁
    cases h₂ : allocDesc { s with free := Function.update s.free i false } with
    | none =>
      simp only [h₂]
      rw [freeDesc_eq hi (Function.update_self ..)]
      simp only [Option.map_some, update_update_free hfi]
      exact ⟨_, rfl, .none (update_desc_of_free (fun d _ => rfl) hfi)⟩
    | some r₂ =>
      obtain ⟨j, s₂⟩ := r₂
      obtain ⟨hj, hfj, rfl⟩ := allocDesc_eq_some h₂
      have hji : j ≠ i := by
        rintro rfl
        simp at hfj
      have hfj' : s.free j = true := (Function.update_of_ne hji ..).symm.trans hfj
      simp only [h₂]
      cases h₃ : allocDesc { s with
          free := Function.update (Function.update s.free i false) j false } with
      | none =>
        have hfree : Function.update (Function.update (Function.update (Function.update
            s.free i false) j false) i true) j true = s.free := by
          rw [Function.update_comm hji, update_update_free hfi]
          exact update_update_free hfj'
        simp only [h₃]
        rw [freeDesc_eq hi (by simp [hji.symm]), Option.bind_some, freeDesc_eq hj (by simp [hji])]
        simp only [Option.map_some, hfree]
        exact ⟨_, rfl, .none (update_desc_of_free
          (update_desc_of_free (fun d _ => rfl) hfi) hfj')⟩
      | some r₃ =>
        obtain ⟨k, s₃⟩ := r₃
        obtain ⟨hk, hfk, rfl⟩ := allocDesc_eq_some h₃
        have hkj : k ≠ j := by
          rintro rfl
          simp at hfk
        replace hfk := (Function.update_of_ne hkj ..).symm.trans hfk
        have hki : k ≠ i := by
          rintro rfl
          simp at hfk
        replace hfk := (Function.update_of_ne hki ..).symm.trans hfk
        simp only [h₃]
        refine ⟨_, rfl, .some ?_ ?_ fun d => ?_⟩
        · simp [Idx.toList, hji.symm, hki.symm, hkj.symm]
        · simp only [Idx.toList, List.mem_cons, List.not_mem_nil, or_false, forall_eq_or_imp,
            forall_eq]
          exact ⟨⟨hi, hfi⟩, ⟨hj, hfj'⟩, hk, hfk⟩
        · simp only [update_eq_false, Idx.toList, List.mem_cons, List.not_mem_nil, or_false,
            or_assoc]

/-! ### Formatted chains -/

/-- The process's chain is formatted for its request. -/
structure State.Formatted (s : State) (t : Thread) : Prop where
  fst : s.desc t.idx.fst = ⟨.ops t.idx.fst, 16, flagNext, t.idx.snd⟩
  snd : s.desc t.idx.snd =
    ⟨.data t.b, 1024, (if t.write then 0 else flagWrite) ||| flagNext, t.idx.thd⟩
  thd : s.desc t.idx.thd = ⟨.status t.idx.fst, 1, flagWrite, 0⟩
  info : (s.info t.idx.fst).b = some t.b
  request : s.requests[t.req]? = some ⟨t.b, s.ops t.idx.fst⟩

theorem Idx.ne_of_nodup (h : idx.toList.Nodup) :
    idx.fst ≠ idx.snd ∧ idx.fst ≠ idx.thd ∧ idx.snd ≠ idx.thd := by
  simp only [Idx.toList, List.nodup_cons, List.mem_cons, List.not_mem_nil, or_false, not_or,
    not_false_eq_true, List.nodup_nil, and_true] at h
  exact ⟨h.1.1, h.1.2, h.2⟩

@[simp] theorem Idx.mem_toList : d ∈ idx.toList ↔ d = idx.fst ∨ d = idx.snd ∨ d = idx.thd := by
  simp [Idx.toList]

/-- A thread whose chain is untouched keeps it formatted. -/
theorem State.Formatted.keep (h : s.Formatted t) (hdesc : ∀ d ∈ t.idx.toList, s'.desc d = s.desc d)
    (hinfo : (s'.info t.idx.fst).b = (s.info t.idx.fst).b)
    (hops : s'.ops t.idx.fst = s.ops t.idx.fst)
    (hreq : s'.requests[t.req]? = s.requests[t.req]?) : s'.Formatted t where
  fst := (hdesc _ (by simp)).trans h.fst
  snd := (hdesc _ (by simp)).trans h.snd
  thd := (hdesc _ (by simp)).trans h.thd
  info := hinfo.trans h.info
  request := by rw [hreq, hops, h.request]

/-- `free_chain` follows the flags and frees three descriptors. -/
theorem freeChain_eq (hnodup : idx.toList.Nodup)
    (hidx : ∀ d ∈ idx.toList, d < num ∧ s.free d = false)
    (hfst : (s.desc idx.fst).flags &&& flagNext ≠ 0) (hfst' : (s.desc idx.fst).next = idx.snd)
    (hsnd : (s.desc idx.snd).flags &&& flagNext ≠ 0) (hsnd' : (s.desc idx.snd).next = idx.thd)
    (hthd : (s.desc idx.thd).flags &&& flagNext = 0) :
    freeChain s idx.fst (num + 1) = some { s with
      desc := Function.update (Function.update (Function.update s.desc idx.fst {})
        idx.snd {}) idx.thd {}
      free := Function.update (Function.update (Function.update s.free idx.fst true)
        idx.snd true) idx.thd true } := by
  obtain ⟨h₁, h₂, h₃⟩ := Idx.ne_of_nodup hnodup
  obtain ⟨hi, hfi⟩ := hidx idx.fst (by simp)
  obtain ⟨hj, hfj⟩ := hidx idx.snd (by simp)
  obtain ⟨hk, hfk⟩ := hidx idx.thd (by simp)
  rw [freeChain, freeDesc_eq hi hfi, Option.bind_some, if_pos hfst, hfst', num, freeChain,
    freeDesc_eq hj (by simpa [h₁.symm] using hfj), Option.bind_some]
  simp only [Function.update_of_ne h₁.symm, hsnd']
  rw [if_pos hsnd, freeChain, freeDesc_eq hk (by simpa [h₂.symm, h₃.symm] using hfk),
    Option.bind_some]
  simp only [Function.update_of_ne h₂.symm, Function.update_of_ne h₃.symm]
  rw [if_neg (not_not.mpr hthd)]

/-- What a call does after its second loop, when its chain is formatted. -/
theorem finish_eq (h : s.Formatted (s.thread p)) (hnodup : (s.thread p).idx.toList.Nodup)
    (hidx : ∀ d ∈ (s.thread p).idx.toList, d < num ∧ s.free d = false) :
    ∃ free desc, (∀ d, free d = true ↔ s.free d = true ∨ d ∈ (s.thread p).idx.toList) ∧
      (∀ d, d ∉ (s.thread p).idx.toList → desc d = s.desc d) ∧
      finish s p = some ({ s with
        free, desc
        info := Function.update s.info (s.thread p).idx.fst
          { s.info (s.thread p).idx.fst with b := none }
        lock := none
        returned := s.returned ++ [(s.thread p).req] }.goto p .out) := by
  have hfst : (s.desc (s.thread p).idx.fst).flags &&& flagNext ≠ 0 := by
    rw [h.fst]
    exact (by decide : flagNext &&& flagNext ≠ 0)
  have hsnd : (s.desc (s.thread p).idx.snd).flags &&& flagNext ≠ 0 := by
    rw [h.snd]
    cases (s.thread p).write with
    | false => exact (by decide : (flagWrite ||| flagNext) &&& flagNext ≠ 0)
    | true => exact (by decide : (0 ||| flagNext) &&& flagNext ≠ 0)
  have hthd : (s.desc (s.thread p).idx.thd).flags &&& flagNext = 0 := by
    rw [h.thd]
    exact (by decide : flagWrite &&& flagNext = 0)
  refine ⟨Function.update (Function.update (Function.update s.free (s.thread p).idx.fst true)
      (s.thread p).idx.snd true) (s.thread p).idx.thd true,
    Function.update (Function.update (Function.update s.desc (s.thread p).idx.fst {})
      (s.thread p).idx.snd {}) (s.thread p).idx.thd {}, fun d => ?_, fun d hd => ?_, ?_⟩
  · simp only [Function.update_apply, Idx.mem_toList]
    split_ifs <;> simp_all
  · rw [Idx.mem_toList, not_or, not_or] at hd
    rw [Function.update_of_ne hd.2.2, Function.update_of_ne hd.2.1, Function.update_of_ne hd.1]
  · rw [finish, freeChain_eq hnodup]
    · rfl
    · exact hidx
    · exact hfst
    · exact congrArg Desc.next h.fst
    · exact hsnd
    · exact congrArg Desc.next h.snd
    · exact hthd

end Virtio

end Xv6
