import TrustAlloc.CborCodec
import TrustAlloc.ChallengeResponse
import Mathlib.Data.Nat.Size

/-!
# The solver of challenges and the check of its responses

An edge looks for bytes that give a digest with enough zeros in front of the
challenge, and sends them with the seconds it took; the node decodes them,
hashes them and looks for the zeros. The two are separate programs. SHA-256 is
a parameter, for both the same function; its calls on the node work on a context.
-/

namespace TrustAlloc.ChallengeSolving

open Cbor CborCodec Certificates CertificateDecoding ChallengeResponse Decoding NrfCrypto

section Solver

/-- `prefix_int.to_bytes((prefix_int.bit_length() + 7) // 8, byteorder='big')`. -/
def prefixBytes (prefixInt : ℕ) : List UInt8 := bigEndian ((Nat.size prefixInt+7)/8) prefixInt

/-- `all(x == 0 for x in digest[0:difficulty])`. -/
def startsWithZeros (digest : Vector UInt8 32) (difficulty : ℕ) : Bool :=
  (digest.toList.take difficulty).all fun x => decide (x=0)

/-- "Have we found a suitable prefix". -/
def suitable (sha256 : List UInt8 → Vector UInt8 32) (difficulty : ℕ) (data : List UInt8)
    (prefixInt : ℕ) : Bool := startsWithZeros (sha256 (prefixBytes prefixInt++data)) difficulty

/-- The loop of `_task_runner` for as many rounds as there is fuel: whether it
gave up, and the number with which it ended. The first argument tells for each
round whether the clock has run past `max_duration` by then. -/
def search (expired found : ℕ → Bool) : ℕ → ℕ → Option (Bool×ℕ)
  | 0,_ => none
  | fuel+1,prefixInt =>
    if expired prefixInt=true then some (true,prefixInt)
    else if found prefixInt=true then some (false,prefixInt)
    else search expired found fuel (prefixInt+1)

/-- `_task_runner`: the response, from the duration in whole seconds. -/
def taskRunner (sha256 : List UInt8 → Vector UInt8 32) (expired : ℕ → Bool) (c : Challenge)
    (duration fuel : ℕ) : Option (List UInt8×ℕ) :=
  (search expired (suitable sha256 c.difficulty.toNat c.data.toList) fuel 0).map fun out =>
    (if out.1=true then [] else prefixBytes out.2,duration)

/-- A response as an item. -/
def responseItem (response : List UInt8×ℕ) : Item := .array [.bytes response.1,.uint response.2]

/-- What is relied on of `cbor2.encoder.dumps`: items that fit are encoded in
the shortest form, and the length of a string that does not fit in a head is an
error. -/
structure CanonicalDumps (dumps : Item → Option (List UInt8)) : Prop where
  /-- Items that fit. -/
  encodes : ∀ item, Fits item → dumps item=some (encode item)
  /-- Strings that are too long. -/
  fails : ∀ items b, .bytes b∈items → 2^64≤b.length → dumps (.array items)=none

variable {expired found : ℕ → Bool}

/-- A search that does not give up ends with the first number that is found. -/
theorem search_found {fuel start prefixInt : ℕ}
    (h : search expired found fuel start=some (false,prefixInt)) :
    found prefixInt=true ∧ ∀ k, start≤k → k<prefixInt → found k=false := by
  induction fuel generalizing start with
  | zero => cases h
  | succ fuel ih =>
    rw [search] at h
    split_ifs at h with hexpired hfound
    · cases h
    · cases h
      exact ⟨hfound,fun k hstart hk => absurd hk (Nat.not_lt.mpr hstart)⟩
    · obtain ⟨hlast,hfirst⟩ := ih h
      refine ⟨hlast,fun k hstart hk => ?_⟩
      obtain rfl | hlater := Nat.eq_or_lt_of_le hstart
      · exact Bool.eq_false_iff.mpr hfound
      · exact hfirst k hlater hk

/-- With enough fuel and time, the first number is found. -/
theorem search_eq {start prefixInt fuel : ℕ} (hstart : start≤prefixInt)
    (hfuel : prefixInt<start+fuel) (htime : ∀ k, k≤prefixInt → expired k=false)
    (hfound : found prefixInt=true) (hfirst : ∀ k, k<prefixInt → found k=false) :
    search expired found fuel start=some (false,prefixInt) := by
  induction fuel generalizing start with
  | zero => omega
  | succ fuel ih =>
    rw [search,htime start hstart,if_neg Bool.false_ne_true]
    obtain rfl | hlater := Nat.eq_or_lt_of_le hstart
    · rw [if_pos hfound]
    · rw [hfirst start hlater,if_neg Bool.false_ne_true]
      exact ih hlater (by omega)

/-- With enough fuel and time, the task answers with the first suitable number. -/
theorem taskRunner_eq {sha256 : List UInt8 → Vector UInt8 32} {c : Challenge}
    {prefixInt fuel : ℕ} (duration : ℕ) (hfuel : prefixInt<fuel)
    (htime : ∀ k, k≤prefixInt → expired k=false)
    (hsuitable : suitable sha256 c.difficulty.toNat c.data.toList prefixInt=true)
    (hfirst : ∀ k, k<prefixInt → suitable sha256 c.difficulty.toNat c.data.toList k=false) :
    taskRunner sha256 expired c duration fuel=some (prefixBytes prefixInt,duration) := by
  rw [taskRunner,search_eq (Nat.zero_le _) (by omega) htime hsuitable hfirst]
  rfl

/-- An answer comes from a suitable number, or is empty because the task gave up. -/
theorem suitable_of_taskRunner {sha256 : List UInt8 → Vector UInt8 32} {c : Challenge}
    {duration fuel : ℕ} {response : List UInt8×ℕ}
    (h : taskRunner sha256 expired c duration fuel=some response) :
    response=([],duration) ∨ ∃ prefixInt, response=(prefixBytes prefixInt,duration) ∧
      suitable sha256 c.difficulty.toNat c.data.toList prefixInt=true := by
  obtain ⟨⟨timeout,prefixInt⟩,hsearch,rfl⟩ := Option.map_eq_some_iff.mp h
  cases timeout with
  | true => exact Or.inl rfl
  | false => exact Or.inr ⟨prefixInt,rfl,(search_found hsearch).1⟩

/-- How long the bytes of a number are. -/
@[simp] theorem length_prefixBytes (prefixInt : ℕ) :
    (prefixBytes prefixInt).length=(Nat.size prefixInt+7)/8 := length_bigEndian _ _

/-- They fit in a word if the number does. -/
theorem length_prefixBytes_le_four_iff (prefixInt : ℕ) :
    (prefixBytes prefixInt).length≤4 ↔ prefixInt < 2^32 := by
  rw [length_prefixBytes,←Nat.size_le]
  omega

/-- A number that takes just so many bytes has these. -/
theorem prefixBytes_eq {k prefixInt : ℕ} (hlow : 256^k≤prefixInt) (hhigh : prefixInt < 256^(k+1)) :
    prefixBytes prefixInt=bigEndian (k+1) prefixInt := by
  rw [show 256=2^8 from rfl,←Nat.pow_mul] at hlow hhigh
  have hmore : 8*k < Nat.size prefixInt := Nat.lt_size.mpr hlow
  have hfits : Nat.size prefixInt≤8*(k+1) := Nat.size_le.mpr hhigh
  rw [prefixBytes,show (Nat.size prefixInt+7)/8=k+1 by omega]

/-- They are the bytes of the number. -/
theorem ofBigEndian_prefixBytes (prefixInt : ℕ) :
    ofBigEndian (prefixBytes prefixInt)=prefixInt := by
  refine ofBigEndian_bigEndian ?_
  have hbits : prefixInt < 2^(8*((Nat.size prefixInt+7)/8)) := Nat.size_le.mp (by omega)
  rwa [Nat.pow_mul] at hbits

end Solver

section Node

/-- The calls of SHA-256 on a context, with the codes that they return. -/
structure Sha256 (C : Type) where
  /-- `platform_sha256_init`. -/
  init : UInt32×C
  /-- `platform_sha256_update`. -/
  update : C → List UInt8 → UInt32×C
  /-- `platform_sha256_finalise`. -/
  finalise : C → UInt32×Vector UInt8 32

variable {C D : Type}

/-- `data_length`. -/
def dataLength (cr : ResponseData) : UInt8 := UInt8.ofNat cr.dataPrefix.length

/-- The calls that `sha256_hash_challenge_response` makes as long as they
succeed: their codes and the digest. -/
def hashCalls (P : Sha256 C) (c : Challenge) (cr : ResponseData) :
    Sha256Codes×Vector UInt8 32 :=
  let start := P.init
  let afterPrefix := P.update start.2 (cr.dataPrefix.take (dataLength cr).toNat)
  let afterData := P.update afterPrefix.2 c.data.toList
  let digest := P.finalise afterData.2
  (⟨start.1,afterPrefix.1,afterData.1,digest.1⟩,digest.2)

/-- The check of a decoded response in `res_coap_cr_post_handler`. -/
def checkResponse (P : Sha256 C) (c : Challenge) (cr : ResponseData) : Bool :=
  let hashed := hashCalls P c cr
  platformCryptoSuccess (sha256HashChallengeResponse hashed.1) &&
    checkFirstNZeros hashed.2.toList c.difficulty.toNat

/-- Size of `data_prefix`, which is a pointer, on the 32-bit targets. -/
def sizeofDataPrefix : ℕ := 4

/-- The contexts of SHA-256 know the bytes that they have absorbed, in order,
and give the digest of them. -/
structure LawfulSha256 (P : Sha256 C) (sha256 : List UInt8 → Vector UInt8 32)
    (Absorbed : C → List UInt8 → Prop) : Prop where
  /-- A new context. -/
  init : platformCryptoSuccess P.init.1=true → Absorbed P.init.2 []
  /-- More bytes. -/
  update : ∀ ctx seen bytes, Absorbed ctx seen →
    platformCryptoSuccess (P.update ctx bytes).1=true →
      Absorbed (P.update ctx bytes).2 (seen++bytes)
  /-- The digest. -/
  finalise : ∀ ctx seen, Absorbed ctx seen → platformCryptoSuccess (P.finalise ctx).1=true →
    (P.finalise ctx).2=sha256 seen

/-- All calls succeed. -/
structure Succeeds (P : Sha256 C) : Prop where
  /-- A new context. -/
  init : platformCryptoSuccess P.init.1=true
  /-- More bytes. -/
  update : ∀ ctx bytes, platformCryptoSuccess (P.update ctx bytes).1=true
  /-- The digest. -/
  finalise : ∀ ctx, platformCryptoSuccess (P.finalise ctx).1=true

/-- The two loops over the digest look for the same zeros, up to the length of
the digest. -/
theorem checkFirstNZeros_eq (digest : Vector UInt8 32) {difficulty : ℕ} (h : difficulty≤32) :
    checkFirstNZeros digest.toList difficulty=startsWithZeros digest difficulty := by
  rw [checkFirstNZeros,if_neg (by rw [Vector.length_toList]; omega),startsWithZeros]

variable {P : Sha256 C} {sha256 : List UInt8 → Vector UInt8 32} {Absorbed : C → List UInt8 → Prop}

/-- The node hashes what the edge has hashed, as long as the length of the
prefix fits in a byte. -/
theorem hashCalls_eq (hP : LawfulSha256 P sha256 Absorbed) (hsucceeds : Succeeds P) (c : Challenge)
    {cr : ResponseData} (hshort : cr.dataPrefix.length < 256) :
    platformCryptoSuccess (sha256HashChallengeResponse (hashCalls P c cr).1)=true ∧
      (hashCalls P c cr).2=sha256 (cr.dataPrefix++c.data.toList) := by
  have hall : cr.dataPrefix.take (dataLength cr).toNat=cr.dataPrefix := by
    rw [dataLength,UInt8.toNat_ofNat_of_lt' hshort,List.take_length]
  have hprefix := hP.update _ _ cr.dataPrefix (hP.init hsucceeds.init) (hsucceeds.update _ _)
  have hdata := hP.update _ _ c.data.toList hprefix (hsucceeds.update _ _)
  have hdigest := hP.finalise _ _ hdata (hsucceeds.finalise _)
  unfold hashCalls sha256HashChallengeResponse
  simp only [hall,hsucceeds.init,hsucceeds.update,hsucceeds.finalise,Bool.true_eq_false,if_false,
    true_and]
  rw [hdigest,List.nil_append]

/-- The node accepts a short prefix if and only if the digest has the zeros. -/
theorem checkResponse_eq (hP : LawfulSha256 P sha256 Absorbed) (hsucceeds : Succeeds P)
    {c : Challenge} (hdifficulty : c.difficulty.toNat≤32) {cr : ResponseData}
    (hshort : cr.dataPrefix.length < 256) :
    checkResponse P c cr=
      startsWithZeros (sha256 (cr.dataPrefix++c.data.toList)) c.difficulty.toNat := by
  obtain ⟨hok,hdigest⟩ := hashCalls_eq hP hsucceeds c hshort
  unfold checkResponse
  simp only [hok,hdigest,Bool.true_and]
  exact checkFirstNZeros_eq _ hdifficulty

/-- What the handler finds out about a decoded response is this check. -/
theorem judgeResponse_eq {ne : ℕ} {ET CT : Type} {env : Env ne ET CT D} (received : ℕ) {p : Post}
    {v : EdgeChallenger ne} {cr : ResponseData}
    (hP : LawfulSha256 P env.sha256 Absorbed) (hsucceeds : Succeeds P)
    (hdecoded : nanocborGetChallengeResponse env.cbor env.sizeofPointer p.payload=.ok cr)
    (hcodes : p.codes=(hashCalls P v.ch cr).1) (hshort : cr.dataPrefix.length < 256) :
    judgeResponse env received p v=.resp (checkResponse P v.ch cr)
      (decide (durationTicks env v<received-v.generated)) := by
  obtain ⟨hok,hdigest⟩ := hashCalls_eq hP hsucceeds v.ch hshort
  unfold judgeResponse checkResponse
  simp only [hdecoded,hcodes,hok,hdigest,Bool.true_eq_false,if_false,Bool.true_and]

end Node

section Agreement

variable {C D : Type}

/-- The laws of the decoder. A string that is read is the one that is there,
also when it is so long that not every decoder reads it. -/
structure LawfulResponseDecoder (cbor : PublishDecoder D) (At : D → Option ℕ → List UInt8 → Prop) :
    Prop extends LawfulDecoder cbor At where
  /-- Byte strings of any length. -/
  getBstr_eq : ∀ dec left (b : List UInt8) rest,
    At dec left (bytesHead b.length++(b++rest)) → left≠some 0 → b.length < 2^64 →
    0≤(cbor.getBstr dec).1 → (cbor.getBstr dec).2.2=b

variable {cbor : PublishDecoder D} {At : D → Option ℕ → List UInt8 → Prop}
  {dumps : Item → Option (List UInt8)}

/-- A prefix that is decoded is not longer than a pointer. -/
theorem length_dataPrefix_le {size : ℕ} {payload : List UInt8} {cr : ResponseData}
    (h : nanocborGetChallengeResponse cbor.toNanocborDecoder size payload=.ok cr) :
    cr.dataPrefix.length≤ size := by
  unfold nanocborGetChallengeResponse at h
  obtain ⟨arr,_,h⟩ := ok_of_bind h
  obtain ⟨⟨arr',data⟩,_,h⟩ := ok_of_bind h
  obtain ⟨hshort,h⟩ := ok_of_guard h
  obtain ⟨_,_,h⟩ := ok_of_bind h
  obtain ⟨_,h⟩ := ok_of_guard h
  obtain ⟨_,h⟩ := ok_of_guard h
  cases h
  exact Nat.not_lt.mp hshort

/-- The bytes of a response, part by part. -/
theorem dumps_eq (hdumps : CanonicalDumps dumps) {response : List UInt8×ℕ}
    (hlength : response.1.length < 2^64) (hduration : response.2 < 2^64) :
    dumps (responseItem response)=some (arrayHead 2++(bytesHead response.1.length++
      (response.1++(uintHead response.2++[])))) := by
  have hfits : Fits (responseItem response) :=
    .row (show 2 < 2^64 by decide) ⟨.bytes hlength,.uint hduration⟩
  rw [hdumps.encodes _ hfits]
  simp only [responseItem,encode,encodeItems,List.length_cons,List.length_nil,List.append_assoc]

/-- The length of a prefix that is sent fits in a head. -/
theorem length_of_dumps (hdumps : CanonicalDumps dumps) {response : List UInt8×ℕ}
    {payload : List UInt8} (h : dumps (responseItem response)=some payload) :
    response.1.length < 2^64 := by
  by_contra hlong
  rw [responseItem,hdumps.fails _ _ List.mem_cons_self (Nat.not_lt.mp hlong)] at h
  cases h

/-- The array of a response is entered. -/
theorem enterArray_ok (hcbor : LawfulResponseDecoder cbor At) (items : List UInt8) :
    ∃ arr, nanocborCheck (cbor.enterArray (cbor.init (arrayHead 2++items)))=.ok arr ∧
      At arr (some 2) items :=
  (hcbor.enterArray _ none 2 items (hcbor.init _) (by simp) (by decide)).check

/-- What is decoded is the prefix that was sent. -/
theorem dataPrefix_eq (hcbor : LawfulResponseDecoder cbor At) (hdumps : CanonicalDumps dumps)
    {size : ℕ} {response : List UInt8×ℕ} {payload : List UInt8} {cr : ResponseData}
    (hduration : response.2 < 2^64) (hpayload : dumps (responseItem response)=some payload)
    (h : nanocborGetChallengeResponse cbor.toNanocborDecoder size payload=.ok cr) :
    cr.dataPrefix=response.1 := by
  have hlength := length_of_dumps hdumps hpayload
  rw [dumps_eq hdumps hlength hduration] at hpayload
  obtain rfl := Option.some.inj hpayload
  obtain ⟨arr,henter,harr⟩ := enterArray_ok hcbor
    (bytesHead response.1.length++(response.1++(uintHead response.2++[])))
  change (nanocborCheck (cbor.enterArray (cbor.init _)) >>= _)=_ at h
  rw [henter,ok_bind] at h
  obtain ⟨⟨arr',data⟩,hget,h⟩ := ok_of_bind h
  obtain ⟨hread,hdata⟩ := ok_of_check hget
  obtain ⟨_,h⟩ := ok_of_guard h
  obtain ⟨_,_,h⟩ := ok_of_bind h
  obtain ⟨_,h⟩ := ok_of_guard h
  obtain ⟨_,h⟩ := ok_of_guard h
  cases h
  exact (congrArg Prod.snd hdata).trans (hcbor.getBstr_eq arr _ _ _ harr (by simp) hlength hread)

/-- A response with a prefix that is not longer than a pointer is decoded. -/
theorem nanocborGetChallengeResponse_dumps (hcbor : LawfulResponseDecoder cbor At)
    (hdumps : CanonicalDumps dumps) {size : ℕ} (response : List UInt8×ℕ)
    (hlength : response.1.length < 2^32) (hsize : response.1.length≤ size)
    (hduration : response.2 < 2^32) : ∃ payload, dumps (responseItem response)=some payload ∧
      nanocborGetChallengeResponse cbor.toNanocborDecoder size payload=
        .ok ⟨response.1,UInt32.ofNat response.2⟩ := by
  refine ⟨_,dumps_eq hdumps (by omega) (by omega),?_⟩
  let items := bytesHead response.1.length++(response.1++(uintHead response.2++[]))
  obtain ⟨arr,henter,harr⟩ := enterArray_ok hcbor items
  obtain ⟨arr₁,hget,harr₁⟩ := (hcbor.getBstr arr _ _ _ harr (by simp) hlength).check
  obtain ⟨arr₂,huint,harr₂⟩ := (hcbor.getUint32 arr₁ _ _ _ harr₁ (by simp) hduration).check
  have hend : cbor.atEnd arr₂=true := hcbor.atEnd_container _ _ _ harr₂
  have hleave := hcbor.leaveContainer _ none _ arr₂ _ (hcbor.init (arrayHead 2++items)) (by simp)
    harr₂
  have hdone := hcbor.atEnd_top _ _ hleave
  change (nanocborCheck (cbor.enterArray (cbor.init _)) >>= _)=_
  rw [henter,ok_bind,hget,ok_bind]
  dsimp only
  rw [if_neg (Nat.not_lt.mpr hsize),huint,ok_bind]
  dsimp only
  rw [hend,if_neg (by simp),hdone,if_neg (by simp)]
  rfl

/-- The node decodes a payload and accepts the response. -/
def Accepted (cbor : PublishDecoder D) (P : Sha256 C) (c : Challenge) (payload : List UInt8) :
    Prop :=
  ∃ cr, nanocborGetChallengeResponse cbor.toNanocborDecoder sizeofDataPrefix payload=.ok cr ∧
    checkResponse P c cr=true

/-- The response with a number and a duration is accepted, and whatever is
decoded is accepted if and only if its digest has the zeros. -/
structure Agrees (cbor : PublishDecoder D) (dumps : Item → Option (List UInt8)) (P : Sha256 C)
    (sha256 : List UInt8 → Vector UInt8 32) (c : Challenge) (prefixInt duration : ℕ) : Prop where
  /-- The response. -/
  response : ∃ payload, dumps (responseItem (prefixBytes prefixInt,duration))=some payload ∧
    Accepted cbor P c payload
  /-- Whatever is decoded. -/
  decoded : ∀ payload cr,
    nanocborGetChallengeResponse cbor.toNanocborDecoder sizeofDataPrefix payload=.ok cr →
      (checkResponse P c cr=true ↔
        startsWithZeros (sha256 (cr.dataPrefix++c.data.toList)) c.difficulty.toNat=true)

variable {P : Sha256 C} {sha256 : List UInt8 → Vector UInt8 32} {Absorbed : C → List UInt8 → Prop}

/-- A response is only accepted if the number fits in a word. -/
theorem lt_of_accepted (hcbor : LawfulResponseDecoder cbor At) (hdumps : CanonicalDumps dumps)
    {c : Challenge} {prefixInt duration : ℕ} (hduration : duration < 2^64)
    (h : ∃ payload, dumps (responseItem (prefixBytes prefixInt,duration))=some payload ∧
      Accepted cbor P c payload) : prefixInt < 2^32 := by
  obtain ⟨payload,hpayload,cr,hcr,_⟩ := h
  have hshort := length_dataPrefix_le hcr
  rw [dataPrefix_eq hcbor hdumps hduration hpayload hcr] at hshort
  exact (length_prefixBytes_le_four_iff prefixInt).mp hshort

/-- For a number that the solver may find, the two programs agree if and only
if the number fits in a word: the limit on the length of the prefix is the
size of the pointer to it. -/
theorem agrees_iff (hcbor : LawfulResponseDecoder cbor At) (hdumps : CanonicalDumps dumps)
    (hP : LawfulSha256 P sha256 Absorbed) (hsucceeds : Succeeds P) (c : Challenge)
    (hdifficulty : c.difficulty.toNat≤32) (prefixInt duration : ℕ) (hduration : duration < 2^32)
    (hsuitable : suitable sha256 c.difficulty.toNat c.data.toList prefixInt=true) :
    Agrees cbor dumps P sha256 c prefixInt duration ↔ prefixInt < 2^32 := by
  have hdecoded : ∀ payload cr,
      nanocborGetChallengeResponse cbor.toNanocborDecoder sizeofDataPrefix payload=.ok cr →
        checkResponse P c cr=
          startsWithZeros (sha256 (cr.dataPrefix++c.data.toList)) c.difficulty.toNat := by
    intro payload cr h
    have hshort := length_dataPrefix_le h
    exact checkResponse_eq hP hsucceeds hdifficulty (Nat.lt_of_le_of_lt hshort (by decide))
  constructor
  · intro h
    exact lt_of_accepted hcbor hdumps (by omega) h.response
  · intro h
    have hshort := (length_prefixBytes_le_four_iff prefixInt).mpr h
    obtain ⟨payload,hpayload,hcr⟩ := nanocborGetChallengeResponse_dumps hcbor hdumps
      (prefixBytes prefixInt,duration) (by dsimp only; omega) hshort hduration
    refine ⟨⟨payload,hpayload,_,hcr,?_⟩,fun payload cr h => by rw [hdecoded payload cr h]⟩
    rw [hdecoded _ _ hcr]
    exact hsuitable

end Agreement

section Sample

/-- Contexts that keep what they have absorbed. -/
def listSha256 (sha256 : List UInt8 → Vector UInt8 32) : Sha256 (List UInt8) where
  init := (nrfSuccess,[])
  update ctx bytes := (nrfSuccess,ctx++bytes)
  finalise ctx := (nrfSuccess,sha256 ctx)

/-- They obey the laws. -/
theorem listSha256_lawful (sha256 : List UInt8 → Vector UInt8 32) :
    LawfulSha256 (listSha256 sha256) sha256 fun ctx seen => ctx=seen where
  init _ := rfl
  update _ _ bytes h _ := congrArg (·++bytes) h
  finalise _ _ h _ := congrArg sha256 h

/-- Their calls succeed. -/
theorem listSha256_succeeds (sha256 : List UInt8 → Vector UInt8 32) :
    Succeeds (listSha256 sha256) := ⟨rfl,fun _ _ => rfl,fun _ => rfl⟩

/-- The decoder on bytes reads the strings that are there. -/
theorem byteDecoder_response : LawfulResponseDecoder byteDecoder.toPublishDecoder Stands where
  toLawfulDecoder := byteDecoder_lawful.toLawfulDecoder
  getBstr_eq _ _ _ _ hp hleft hb _ := (readString_head (by decide) hb hp hleft).2.2

/-- The length of a byte string fits in a head. -/
def shortBytes : Item → Bool
  | .bytes b => decide (b.length < 2^64)
  | _ => true

/-- An encoder that looks at the strings in an array. -/
def checkedEncode : Item → Option (List UInt8)
  | .array items => if items.all shortBytes=true then some (encode (.array items)) else none
  | item => some (encode item)

/-- It does what is relied on. -/
theorem checkedEncode_canonical : CanonicalDumps checkedEncode where
  encodes item hitem := by
    cases hitem with
    | array hlength hitems =>
      refine if_pos (List.all_eq_true.mpr fun i hi => ?_)
      cases hitems i hi with
      | bytes hshort => exact decide_eq_true hshort
      | uint => rfl
      | text => rfl
      | array => rfl
      | map => rfl
      | bool => rfl
      | null => rfl
    | uint => rfl
    | bytes => rfl
    | text => rfl
    | map => rfl
    | bool => rfl
    | null => rfl
  fails items b hmem hlong := if_neg fun hall => by
    have hshort : decide (b.length < 2^64)=true := List.all_eq_true.mp hall _ hmem
    exact Nat.not_lt.mpr hlong (of_decide_eq_true hshort)

/-- A challenge of zeros. -/
def zerosChallenge : Challenge := ⟨.replicate 32 0,2,40⟩

/-- A challenge of ones, which takes billions of rounds. -/
def onesChallenge : Challenge := ⟨.replicate 32 1,4,20000⟩

/-- The digest of the prefix 01 f6 8a ad 30, which is the first to be found,
with a challenge of ones. -/
def onesDigest : Vector UInt8 32 := #v[0x00,0x00,0x00,0x00,0xc0,0xc6,0xf4,0xf6,
  0xf9,0x46,0x23,0x09,0x45,0xae,0x08,0x05,0xcd,0x4c,0xf3,0xd4,0xf6,0x9a,0x9f,0xf3,
  0x75,0x4f,0xf8,0xd8,0xd5,0x34,0xf1,0xc6]

/-- SHA-256, as far as it is known here. -/
def sampleSha256 (bytes : List UInt8) : Vector UInt8 32 :=
  if bytes=[0x01,0x64,0xc4]++zerosChallenge.data.toList then sampleDigest
  else if bytes=[0x01,0xf6,0x8a,0xad,0x30]++onesChallenge.data.toList then onesDigest
  else .replicate 32 0xff

/-- The challenge of zeros is solved by three bytes. -/
theorem suitable_zeros : suitable sampleSha256 2 zerosChallenge.data.toList 0x0164c4=true := by
  rw [suitable,prefixBytes_eq (k:=2) (by decide) (by decide)]
  decide

/-- The challenge of ones is solved by five bytes. -/
theorem suitable_ones : suitable sampleSha256 4 onesChallenge.data.toList 0x01f68aad30=true := by
  rw [suitable,prefixBytes_eq (k:=4) (by decide) (by decide)]
  decide

/-- The node accepts the three bytes. -/
theorem agrees_iff_zeros :
    Agrees byteDecoder.toPublishDecoder checkedEncode (listSha256 sampleSha256) sampleSha256
      zerosChallenge 0x0164c4 5 :=
  (agrees_iff byteDecoder_response checkedEncode_canonical (listSha256_lawful _)
    (listSha256_succeeds _) zerosChallenge (by decide) 0x0164c4 5 (by decide)
    suitable_zeros).mpr (by decide)

/-- It rejects the five bytes. -/
theorem not_agrees_of_five_bytes : ¬∀ (c : Challenge) (prefixInt duration : ℕ),
    c.difficulty.toNat≤32 → duration < 2^32 →
    suitable sampleSha256 c.difficulty.toNat c.data.toList prefixInt=true →
    Agrees byteDecoder.toPublishDecoder checkedEncode (listSha256 sampleSha256) sampleSha256 c
      prefixInt duration := by
  intro h
  have hones := h onesChallenge 0x01f68aad30 17000 (by decide) (by decide) suitable_ones
  have hword := lt_of_accepted byteDecoder_response checkedEncode_canonical (by decide)
    hones.response
  revert hword
  decide

end Sample

end TrustAlloc.ChallengeSolving
