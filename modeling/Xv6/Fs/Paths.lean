import Mathlib.Data.List.TakeWhile
import Xv6.Fs.Model

/-!
# Path walking

`skipelem` cuts a path into its components, and `namex` follows them from the root or from the
current directory. `namei` and `nameiparent` are the same loop, which the latter leaves before the
last component; so `namei` does what `nameiparent` does and then looks the last component up
(`namei_eq`). Each turn gives up the reference to the directory it leaves, and the references that
a walk leaves behind are those it found and one for the inode it returns.
-/

namespace Xv6

namespace Fs

open StateLogic

/-! ### Components -/

/-- The parts of a path between slashes that are not empty. -/
def parts (path : List UInt8) : List (List UInt8) := (path.splitOn slash).filter (· ≠ [])

@[simp]
theorem parts_nil : parts [] = [] := rfl

theorem parts_append (a b : List UInt8) : parts (a ++ slash :: b) = parts a ++ parts b := by
  rw [parts, List.splitOn_append_cons_self, List.filter_append]
  rfl

@[simp]
theorem parts_slash (path : List UInt8) : parts (slash :: path) = parts path :=
  parts_append [] path

theorem parts_of_notMem {w : List UInt8} (h : slash ∉ w) (h0 : w ≠ []) : parts w = [w] := by
  rw [parts, List.splitOn_eq_singleton h]
  simp [h0]

theorem parts_dropWhile (path : List UInt8) : parts (path.dropWhile (· == slash)) = parts path := by
  induction path with
  | nil => rfl
  | cons c path ih =>
    by_cases hc : c = slash
    · subst hc
      rw [List.dropWhile_cons, if_pos (by decide), ih, parts_slash]
    · rw [List.dropWhile_cons, if_neg (by simpa using hc)]

/-- `skipelem` takes the first part off. -/
theorem skipelem_spec (path : List UInt8) : match skipelem path with
    | none => parts path = []
    | some (name, rest) => ∃ w, name = w.take dirsiz ∧ parts path = w :: parts rest ∧
        rest.length < path.length := by
  rw [← parts_dropWhile path]
  have hlen := (List.dropWhile_sublist (· == slash) (l := path)).length_le
  have hhead := List.head?_dropWhile_not (· == slash) path
  simp only [skipelem]
  generalize path.dropWhile (· == slash) = p at hlen hhead
  cases p with
  | nil => rfl
  | cons c q =>
    have hc : c ≠ slash := by simpa using hhead
    rw [if_neg (by simp)]
    -- the first part, and what follows it: nothing, or a slash
    have hw : (c :: q).takeWhile (· ≠ slash) ≠ [] := by simp [hc]
    have hnot : slash ∉ (c :: q).takeWhile (· ≠ slash) := fun hm => by
      simpa using List.mem_takeWhile_imp hm
    have hnext := List.head?_dropWhile_not (· ≠ slash) (c :: q)
    have hsplit := List.takeWhile_append_dropWhile (p := (· ≠ slash)) (l := c :: q)
    generalize (c :: q).takeWhile (· ≠ slash) = w at hw hnot hsplit
    generalize (c :: q).dropWhile (· ≠ slash) = d at hnext hsplit
    rw [← hsplit] at hlen ⊢
    refine ⟨w, rfl, ?_, ?_⟩
    · rw [List.drop_left, parts_dropWhile]
      cases d with
      | nil => rw [List.append_nil, parts_of_notMem hnot hw, parts_nil]
      | cons c' d =>
        obtain rfl : c' = slash := by simpa using hnext
        rw [parts_append, parts_slash, parts_of_notMem hnot hw]
        rfl
    · have hpos := List.length_pos_iff.mpr hw
      have hle := (List.dropWhile_sublist (· == slash) (l := d)).length_le
      rw [List.length_append] at hlen
      rw [List.drop_left]
      omega

/-- The loop of `namex` meets the components of the path, each cut to `DIRSIZ` bytes, however many
more turns it is given than there are bytes. -/
theorem elemsFuel_eq {n : ℕ} {path : List UInt8} (h : path.length ≤ n) :
    elemsFuel n path = (parts path).map (·.take dirsiz) := by
  induction n generalizing path with
  | zero =>
    obtain rfl : path = [] := List.length_eq_zero_iff.mp (Nat.le_zero.mp h)
    rfl
  | succ n ih =>
    have hspec := skipelem_spec path
    rw [elemsFuel]
    cases hs : skipelem path with
    | none =>
      rw [hs] at hspec
      rw [hspec]
      rfl
    | some r =>
      obtain ⟨name, rest⟩ := r
      rw [hs] at hspec
      obtain ⟨w, rfl, hparts, hlt⟩ := hspec
      rw [hparts, List.map_cons]
      exact congrArg _ (ih (by omega))

theorem elems_eq (path : List UInt8) : elems path = (parts path).map (·.take dirsiz) :=
  elemsFuel_eq le_rfl

/-! ### The two modes -/

/-- The last turn of the loop in `namei`, from what `nameiparent` has returned. -/
def lookupLast : Option (ℕ × Name) → F (Option ℕ)
  | none => return none
  | some (dp, name) => do
    let r ← dirlookup dp name
    iput dp
    return r.map Prod.fst

theorem walk_eq (name : Name) (rest : List Name) (ip : ℕ) :
    (do let r ← walk false ip (name :: rest); return r.map Prod.fst) =
      (do let r ← walk true ip (name :: rest); lookupLast r) := by
  induction rest generalizing name ip with
  | nil =>
    simp only [walk, bind_assoc]
    refine bind_congr fun _ => bind_congr fun d => ?_
    by_cases hd : d.type ≠ .dir
    · rw [if_pos hd, if_pos hd]
      simp only [bind_assoc, pure_bind]
      rfl
    · rw [if_neg hd, if_neg hd, if_neg (by simp), if_pos ⟨trivial, trivial⟩]
      simp only [bind_assoc, pure_bind, lookupLast]
      refine bind_congr fun r => ?_
      cases r <;> simp
  | cons name' rest ih =>
    rw [walk, walk]
    simp only [bind_assoc]
    refine bind_congr fun _ => bind_congr fun d => ?_
    by_cases hd : d.type ≠ .dir
    · rw [if_pos hd, if_pos hd]
      simp only [bind_assoc, pure_bind]
      rfl
    · rw [if_neg hd, if_neg hd, if_neg (by simp), if_neg (by simp)]
      simp only [bind_assoc]
      refine bind_congr fun r => ?_
      cases r with
      | none =>
        simp only [bind_assoc, pure_bind]
        rfl
      | some r =>
        simp only [bind_assoc]
        exact bind_congr fun _ => ih name' r.1

/-- `namei` continues where `nameiparent` stops. -/
theorem namei_eq (p : Fin nproc) {path : List UInt8} (h : parts path ≠ []) :
    namei p path = (do let r ← nameiparent p path; lookupLast r) := by
  obtain ⟨w, rest, hparts⟩ := List.exists_cons_of_ne_nil h
  have helems : elems path = w.take dirsiz :: rest.map (·.take dirsiz) := by
    rw [elems_eq, hparts, List.map_cons]
  rw [namei, nameiparent, namex, namex]
  split
  · rw [helems]
    simp only [bind_assoc]
    exact bind_congr fun _ => walk_eq _ _ _
  · rw [helems]
    simp only [bind_assoc]
    refine bind_congr fun s => ?_
    cases s.cwd p with
    | none => rfl
    | some ip =>
      simp only [bind_assoc]
      exact bind_congr fun _ => walk_eq _ _ _

/-! ### References -/

/-- The reference counts of the inode table. -/
def State.refs (s : State) (i : ℕ) : ℕ := (s.itable i).ref

theorem frames_setDinode (ip : ℕ) (f : Dinode → Dinode) : Frames State.refs (setDinode ip f) :=
  Frames.modify fun s => funext fun i => by
    simp only [State.refs, State.putInode, Function.update_apply]
    split
    · rename_i hi
      rw [hi]
    · rfl

theorem frames_logWrite (b : ℕ) : Frames State.refs (logWrite b) := Frames.modify fun _ => rfl

theorem frames_iupdate (ip : ℕ) : Frames State.refs (iupdate ip) :=
  .bind (.modify fun _ => rfl) fun _ => .bind .get fun _ => frames_logWrite _

theorem frames_dinodeOf (ip : ℕ) : Frames State.refs (dinodeOf ip) :=
  .bind .get fun _ => .pure _

theorem frames_balloc : Frames State.refs balloc := by
  refine .bind .get fun s => ?_
  split
  · exact .bind (.modify fun _ => rfl) fun _ => .bind (frames_logWrite _) fun _ =>
      .bind (.bind (.modify fun _ => rfl) fun _ => frames_logWrite _) fun _ => .pure _
  · exact .pure _

theorem frames_bfree (b : ℕ) : Frames State.refs (bfree b) := by
  refine .bind .get fun s => ?_
  have hrest : Frames State.refs (do
      modify fun s => { s with used := Function.update s.used b false }
      logWrite (bblock s b)) := .bind (.modify fun _ => rfl) fun _ => frames_logWrite _
  exact .ite (.bind (.throw _) fun _ => hrest) hrest

theorem frames_bmapIndirect (ip : ℕ) : Frames State.refs (bmapIndirect ip) :=
  .bind (frames_dinodeOf ip) fun _ => .ite (.pure _) <| .bind frames_balloc fun _ =>
    .ite (.pure _) <| .bind (frames_setDinode ip _) fun _ => .pure _

theorem frames_bmap (ip bn : ℕ) : Frames State.refs (bmap ip bn) := by
  refine .ite ?_ (.ite ?_ (.throw _))
  · exact .bind (frames_dinodeOf ip) fun _ => .ite (.pure _) <| .bind frames_balloc fun _ =>
      .ite (.pure _) <| .bind (frames_setDinode ip _) fun _ => .pure _
  · exact .bind (frames_bmapIndirect ip) fun _ => .ite (.pure _) <| .bind .get fun _ =>
      .ite (.pure _) <| .bind frames_balloc fun _ => .ite (.pure _) <|
        .bind (.modify fun _ => rfl) fun _ => .bind (frames_logWrite _) fun _ => .pure _

theorem frames_itrunc (ip : ℕ) : Frames State.refs (itrunc ip) := by
  have hset := fun f => frames_setDinode ip f
  have hend : Frames State.refs (do setDinode ip fun d => { d with size := 0 }; iupdate ip) :=
    .bind (hset _) fun _ => frames_iupdate ip
  refine .bind (.forM fun k => ?_) fun _ => .bind (frames_dinodeOf ip) fun d => .ite ?_ hend
  · exact .bind (frames_dinodeOf ip) fun _ =>
      .ite (.bind (frames_bfree _) fun _ => hset _) (.pure _)
  · exact .bind .get fun _ => .bind (.forM fun _ => .ite (frames_bfree _) (.pure _)) fun _ =>
      .bind (frames_bfree _) fun _ => .bind (hset _) fun _ => hend

theorem frames_readLoop (ip : ℕ) (dst : ℕ → Bool) (n fuel : ℕ) (off tot : ℕ) (acc : List UInt8) :
    Frames State.refs (readLoop ip dst n fuel off tot acc) := by
  induction fuel generalizing off tot acc with
  | zero => exact .pure _
  | succ fuel ih =>
    exact .ite (.bind (frames_bmap ip _) fun _ => .ite (.pure _) <| .bind .get fun _ =>
      .ite (ih _ _ _) (.pure _)) (.pure _)

theorem frames_readEnt (dp off : ℕ) (e : Panic) : Frames State.refs (readEnt dp off e) := by
  refine .bind (.bind (frames_dinodeOf dp) fun d => .ite (.pure _) ?_) fun r => ?_
  · exact frames_readLoop dp _ _ _ _ _ _
  cases r with
  | none => exact .throw _
  | some l => exact .ite (.pure _) (.throw _)

theorem frames_ilock (ip : ℕ) : Frames State.refs (ilock ip) := by
  refine .bind .get fun s => ?_
  have hfill : Frames State.refs (do
      setInode ip fun x => { x with d := s.dinode ip, valid := true }
      if (s.dinode ip).type = .free then throw .noType) := by
    refine .bind (.modify fun s => funext fun i => ?_) fun _ => .ite (.throw _) (.pure _)
    simp only [State.refs, State.putInode, Function.update_apply]
    split
    · rename_i hi
      rw [hi]
    · rfl
  have hrest : Frames State.refs (do
      if s.sb.ninodes ≤ ip then throw .inum
      if (s.itable ip).valid = false then
        setInode ip fun x => { x with d := s.dinode ip, valid := true }
        if (s.dinode ip).type = .free then throw .noType) :=
    .ite (.bind (.throw _) fun _ => .ite hfill (.pure _)) (.ite hfill (.pure _))
  exact .ite (.bind (.throw _) fun _ => hrest) hrest

section

variable {s : State}

/-- One more reference to an inode. -/
def gain (f : ℕ → ℕ) (o : Option ℕ) (i : ℕ) : ℕ := f i + if o = some i then 1 else 0

theorem refs_putInode (s : State) (ip : ℕ) (x : Inode) :
    (s.putInode ip x).refs = Function.update s.refs ip x.ref := by
  funext i
  simp only [State.refs, State.putInode, Function.update_apply]
  split <;> rfl

theorem update_gain (f : ℕ → ℕ) (i : ℕ) : Function.update f i (f i + 1) = gain f (some i) := by
  funext j
  by_cases hj : j = i
  · subst hj
    simp [gain]
  · simp [gain, hj, Ne.symm hj]

theorem iget_refs (i : ℕ) :
    wp (iget i) (fun _ s' => s'.refs = gain s.refs (some i)) (fun _ _ => True) s := by
  rw [iget]
  simp only [wp_bind, wp_get, wp_ite, wp_throw, setInode, wp_modify, refs_putInode]
  refine ⟨fun _ => update_gain _ _, fun h0 => ⟨fun _ => trivial, fun _ => ?_⟩⟩
  have hzero : s.refs i = 0 := by
    change (s.itable i).ref = 0
    omega
  rw [← update_gain, hzero]

theorem iput_refs {f : ℕ → ℕ} {ip : ℕ} {o : Option ℕ} (h : s.refs = gain (gain f (some ip)) o) :
    wp (iput ip) (fun _ s' => s'.refs = gain f o) (fun _ _ => True) s := by
  -- giving the reference up
  have hlast : ∀ t : State, t.refs = s.refs →
      wp (setInode ip fun x => { x with ref := x.ref - 1 }) (fun _ s' => s'.refs = gain f o)
        (fun _ _ => True) t := by
    intro t ht
    rw [setInode, wp_modify, refs_putInode]
    change Function.update t.refs ip (t.refs ip - 1) = _
    rw [ht, h]
    funext i
    by_cases hi : i = ip
    · subst hi
      simp only [Function.update_self, gain, if_true]
      omega
    · simp [gain, hi, Ne.symm hi]
  have hfree : Frames State.refs (do
      itrunc ip
      setDinode ip fun d => { d with type := .free }
      iupdate ip
      setInode ip fun x => { x with valid := false }) := by
    refine .bind (frames_itrunc ip) fun _ => .bind (frames_setDinode ip _) fun _ =>
      .bind (frames_iupdate ip) fun _ => .modify fun s => ?_
    rw [refs_putInode]
    exact Function.update_eq_self ip s.refs
  rw [iput]
  simp only [wp_bind, wp_get, wp_ite]
  refine ⟨fun _ => ?_, fun _ => hlast s rfl⟩
  have hseq := wp_mono (hfree s) (fun _ t ht => hlast t ht) fun _ _ he => he
  simpa only [wp_bind] using hseq

theorem dirlookup_refs (dp : ℕ) (name : Name) :
    wp (dirlookup dp name) (fun r s' => s'.refs = gain s.refs (r.map Prod.fst)) (fun _ _ => True)
      s := by
  rw [dirlookup]
  refine wp_seq (frames_dinodeOf dp s) fun d s₁ h₁ => ?_
  rw [← h₁, wp_ite]
  refine ⟨fun _ => trivial, fun _ => ?_⟩
  clear h₁
  generalize offsets d.size = offs
  induction offs generalizing s₁ with
  | nil => rfl
  | cons off offs ih =>
    rw [lookupFrom]
    refine wp_seq (frames_readEnt dp off _ s₁) fun de s₂ h₂ => ?_
    rw [← h₂]
    simp only [wp_ite, wp_bind, wp_pure]
    exact ⟨fun _ => ih s₂, fun _ => ⟨fun _ => iget_refs _, fun _ => ih s₂⟩⟩

/-- A walk that starts with a reference to `ip` ends with one to what it returns. -/
theorem walk_refs (parent : Bool) (names : List Name) (ip : ℕ) {f : ℕ → ℕ}
    (h : s.refs = gain f (some ip)) :
    wp (walk parent ip names) (fun r s' => s'.refs = gain f (r.map Prod.fst)) (fun _ _ => True)
      s := by
  have hput : ∀ {t : State} {ip : ℕ}, t.refs = gain f (some ip) →
      wp (do iput ip; return none) (fun (r : Option (ℕ × Name)) s' =>
        s'.refs = gain f (r.map Prod.fst)) (fun _ _ => True) t := fun ht =>
    wp_seq (iput_refs (o := none) ht) fun _ _ hs => hs
  induction names generalizing ip s with
  | nil =>
    rw [walk, wp_ite]
    exact ⟨fun _ => hput h, fun _ => h⟩
  | cons name rest ih =>
    rw [walk]
    refine wp_seq (frames_ilock ip s) fun _ s₁ h₁ => wp_seq (frames_dinodeOf ip s₁) fun d s₂ h₂ => ?_
    have h₂ := h₂.trans (h₁.trans h)
    rw [wp_ite, wp_ite]
    refine ⟨fun _ => hput h₂, fun _ => ⟨fun _ => h₂, fun _ => ?_⟩⟩
    refine wp_seq (dirlookup_refs ip name) fun r s₃ h₃ => ?_
    rw [h₂] at h₃
    cases r with
    | none => exact hput h₃
    | some r =>
      exact wp_seq (iput_refs h₃) fun _ s₄ h₄ => ih r.1 h₄

theorem namex_refs (p : Fin nproc) (path : List UInt8) (parent : Bool) :
    wp (namex p path parent) (fun r s' => s'.refs = gain s.refs (r.map Prod.fst)) (fun _ _ => True)
      s := by
  rw [namex, wp_ite]
  refine ⟨fun _ => wp_seq (iget_refs rootino) fun _ s₁ h₁ => walk_refs parent _ _ h₁, fun _ => ?_⟩
  simp only [wp_bind, wp_get]
  cases s.cwd p with
  | none => trivial
  | some ip =>
    simp only [wp_bind, idup, setInode, wp_modify]
    exact walk_refs parent _ _ ((refs_putInode ..).trans (update_gain _ _))

/-- A walk depends on the components of the path and on whether it starts at the root. -/
theorem namex_congr (p : Fin nproc) {path path' : List UInt8} (parent : Bool)
    (hparts : parts path = parts path') (hhead : path.head? = path'.head?) :
    namex p path parent = namex p path' parent := by
  rw [namex, namex, elems_eq, elems_eq, hparts, hhead]

theorem namex_slash_slash (p : Fin nproc) (a b : List UInt8) (parent : Bool) :
    namex p (a ++ slash :: slash :: b) parent = namex p (a ++ slash :: b) parent := by
  refine namex_congr p parent ?_ ?_
  · rw [parts_append, parts_slash, parts_append]
  · cases a <;> rfl

theorem namex_append_slash (p : Fin nproc) {path : List UInt8} (h : parts path ≠ [])
    (parent : Bool) : namex p (path ++ [slash]) parent = namex p path parent := by
  refine namex_congr p parent ?_ ?_
  · rw [parts_append, parts_nil, List.append_nil]
  · cases path with
    | nil => exact absurd rfl h
    | cons c path => rfl

/-- **Path walking.** The loop meets the components of the path. With at least one component,
`namei` returns what `dirlookup` finds for the last one in the directory that `nameiparent` returns,
and nothing if that returns nothing; slashes that are repeated or come last do not matter; and each
of them leaves one reference more, to the inode it returns. -/
theorem namei_walks (p : Fin nproc) (path : List UInt8) :
    (∀ n, path.length ≤ n → elemsFuel n path = (parts path).map (·.take dirsiz)) ∧
    (parts path ≠ [] →
      (∀ s s₁, (nameiparent p path).run s = .ok none s₁ → (namei p path).run s = .ok none s₁) ∧
      (∀ s dp name s₁, (nameiparent p path).run s = .ok (some (dp, name)) s₁ →
        (namei p path).run s =
          (do let r ← dirlookup dp name; iput dp; return r.map Prod.fst : F (Option ℕ)).run s₁) ∧
      namei p (path ++ [slash]) = namei p path ∧
      nameiparent p (path ++ [slash]) = nameiparent p path) ∧
    (∀ a b, path = a ++ slash :: b → namei p (a ++ slash :: slash :: b) = namei p path ∧
      nameiparent p (a ++ slash :: slash :: b) = nameiparent p path) ∧
    (∀ s r s', (namei p path).run s = .ok r s' → s'.refs = gain s.refs r) ∧
    ∀ s r s', (nameiparent p path).run s = .ok r s' → s'.refs = gain s.refs (r.map Prod.fst) := by
  refine ⟨fun n hn => elemsFuel_eq hn, fun h => ⟨fun s s₁ hrun => ?_, fun s dp name s₁ hrun => ?_,
    ?_, ?_⟩, fun a b hab => ⟨?_, ?_⟩, fun s r s' hrun => ?_, fun s r s' hrun => ?_⟩
  · rw [namei_eq p h, run_bind_ok hrun]
    rfl
  · rw [namei_eq p h, run_bind_ok hrun]
    rfl
  · rw [namei, namei, namex_append_slash p h]
  · exact namex_append_slash p h true
  · rw [namei, namei, namex_slash_slash, hab]
  · rw [nameiparent, nameiparent, namex_slash_slash, hab]
  · obtain ⟨r₀, s₀, hrun₀, hret⟩ := bind_eq_ok.mp hrun
    obtain ⟨rfl, rfl⟩ := EStateM.Result.ok.inj hret
    have hrefs := wp_ok (namex_refs p path false) hrun₀
    exact hrefs
  · have hrefs := wp_ok (namex_refs p path true) hrun
    exact hrefs

theorem namei_walks_ab : parts [47, 97, 47, 98] ≠ [] ∧
    nameiparent 0 [47, 97, 47, 98, 47] = nameiparent 0 [47, 97, 47, 98] :=
  ⟨by decide, ((namei_walks 0 [47, 97, 47, 98]).2.1 (by decide)).2.2.2⟩

end

end Fs

end Xv6
