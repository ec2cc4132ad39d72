import Fs3.Foundation.Histories

/-! # Deal records

The deals of objects and of buckets, and the records of the archives they are sent in, are JSON
documents in one LevelDB. -/

namespace Fs3.Deals

/-- `OnlineDealResponse`. -/
structure OnlineDealResponse where
  filename : String := ""
  walletAddress : String := ""
  verifiedDeal : String := ""
  fastRetrieval : String := ""
  dataCid : String := ""
  minerId : String := ""
  price : String := ""
  duration : String := ""
  dealCid : String := ""
  timeStamp : String := ""
  deriving DecidableEq

/-- `SendResponse`. -/
structure SendResponse where
  data : OnlineDealResponse
  status : String
  message : String
  deriving DecidableEq

/-- A JSON document: fields with texts, and the field `deals` where it is there. -/
structure Document where
  texts : List (String × String)
  deals : Option (List SendResponse) := none
  deriving DecidableEq

def Document.text (document : Document) (field : String) : String :=
  (document.texts.lookup field).getD ""

/-- `BucketFileList`. -/
structure BucketFileList where
  fileName : String
  deals : List SendResponse
  deriving DecidableEq

/-- `BucketDealList`. -/
structure BucketDealList where
  bucketName : String
  deals : List SendResponse
  deriving DecidableEq

/-- `CarCsv`. -/
structure CarCsv where
  carFileName : String
  carFilePath : String
  pieceCid : String
  dataCid : String
  carFileSize : String
  carFileMd5 : String
  sourceFileName : String
  sourceFilePath : String
  sourceFileSize : String
  sourceFileMd5 : String
  carFileUrl : String
  deriving DecidableEq

/-- `TaskCsv`. -/
structure TaskCsv where
  uuid : String
  minerId : String
  dealCid : String
  payloadCid : String
  fileSourceUrl : String
  md5 : String
  startEpoch : String
  deriving DecidableEq

/-- `MetaDataCsv`. -/
structure MetaDataCsv where
  carFileName : String
  carFilePath : String
  pieceCid : String
  dataCid : String
  carFileSize : String
  carFileMd5 : String
  sourceFileName : String
  sourceFilePath : String
  sourceFileSize : String
  sourceFileMd5 : String
  carFileUrl : String
  uuid : String
  sourceFileUrl : String
  dealCid : String
  minerId : String
  startEpoch : String
  deriving DecidableEq

def CarCsv.toTaskCsv (records : CarCsv) (taskUuid : String) : TaskCsv where
  uuid := taskUuid
  minerId := ""
  dealCid := ""
  payloadCid := records.dataCid
  fileSourceUrl := records.carFileUrl
  md5 := records.carFileMd5
  startEpoch := ""

def CarCsv.toMetaDataCsv (records : CarCsv) (taskUuid : String) : MetaDataCsv where
  carFileName := records.carFileName
  carFilePath := records.carFilePath
  pieceCid := records.pieceCid
  dataCid := records.dataCid
  carFileSize := records.dataCid
  carFileMd5 := records.carFileMd5
  sourceFileName := records.sourceFileName
  sourceFilePath := records.sourceFilePath
  sourceFileSize := records.sourceFileSize
  sourceFileMd5 := records.sourceFileMd5
  carFileUrl := records.carFileUrl
  uuid := taskUuid
  sourceFileUrl := ""
  dealCid := ""
  minerId := ""
  startEpoch := ""

namespace BucketFileList

def marshal (data : BucketFileList) : Document where
  texts := [("file_name", data.fileName)]
  deals := some data.deals

def unmarshal (document : Document) : BucketFileList where
  fileName := document.text "file_name"
  deals := document.deals.getD []

end BucketFileList

namespace BucketDealList

def marshal (data : BucketDealList) : Document where
  texts := [("bucket_name", data.bucketName)]
  deals := some data.deals

def unmarshal (document : Document) : BucketDealList where
  bucketName := document.text "bucket_name"
  deals := document.deals.getD []

end BucketDealList

def CarCsv.marshal (records : CarCsv) : Document where
  texts :=
    [("CarFileName", records.carFileName),
      ("CarFilePath", records.carFilePath),
      ("PieceCid", records.pieceCid),
      ("DataCid", records.dataCid),
      ("CarFileSize", records.carFileSize),
      ("CarFileMd5", records.carFileMd5),
      ("SourceFileName", records.sourceFileName),
      ("SourceFilePath", records.sourceFilePath),
      ("SourceFileSize", records.sourceFileSize),
      ("SourceFileMd5", records.sourceFileMd5),
      ("CarFileUrl", records.carFileUrl)]

def TaskCsv.marshal (record : TaskCsv) : Document where
  texts :=
    [("Uuid", record.uuid),
      ("MinerId", record.minerId),
      ("DealCid", record.dealCid),
      ("PayloadCid", record.payloadCid),
      ("FileSourceUrl", record.fileSourceUrl),
      ("Md5", record.md5),
      ("StartEpoch", record.startEpoch)]

def MetaDataCsv.marshal (record : MetaDataCsv) : Document where
  texts :=
    [("CarFileName", record.carFileName),
      ("CarFilePath", record.carFilePath),
      ("PieceCid", record.pieceCid),
      ("DataCid", record.dataCid),
      ("CarFileSize", record.carFileSize),
      ("CarFileMd5", record.carFileMd5),
      ("SourceFileName", record.sourceFileName),
      ("SourceFilePath", record.sourceFilePath),
      ("SourceFileSize", record.sourceFileSize),
      ("SourceFileMd5", record.sourceFileMd5),
      ("CarFileUrl", record.carFileUrl),
      ("Uuid", record.uuid),
      ("SourceFileUrl", record.sourceFileUrl),
      ("DealCid", record.dealCid),
      ("MinerId", record.minerId),
      ("StartEpoch", record.startEpoch)]

/-- The documents by their keys. -/
abbrev LevelDb := String → Option Document

namespace LevelDb

variable (db : LevelDb)

def put (key : String) (document : Document) : LevelDb :=
  Function.update db key (some document)

/-- `SaveToDb`. A document that is there is read, and written back, as the deals of
a bucket. -/
def saveToDb (bucket object : String) (response : SendResponse) : LevelDb :=
  let fileDealKey := bucket ++ "_" ++ object
  match db fileDealKey with
  | some bucketDeals =>
    let data := BucketDealList.unmarshal bucketDeals
    db.put fileDealKey
      { data with deals := data.deals ++ [response] : BucketDealList }.marshal
  | none =>
    db.put fileDealKey { fileName := object, deals := [response] : BucketFileList }.marshal

/-- `BucketSaveToDb`. -/
def bucketSaveToDb (bucket : String) (response : SendResponse) : LevelDb :=
  match db bucket with
  | some bucketDeals =>
    let data := BucketDealList.unmarshal bucketDeals
    db.put bucket { data with deals := data.deals ++ [response] : BucketDealList }.marshal
  | none =>
    db.put bucket { bucketName := bucket, deals := [response] : BucketDealList }.marshal

/-- What `RetrieveDeal` reads. -/
def fileDeals (bucket object : String) : Option BucketFileList :=
  (db (bucket ++ "_" ++ object)).map BucketFileList.unmarshal

/-- What `RetrieveDeals` reads. -/
def bucketDeals (bucket : String) : Option BucketDealList :=
  (db bucket).map BucketDealList.unmarshal

/-- `saveCarCsvToDb`, with the record that it makes of an archive. -/
def saveCarCsvToDb (bucket : String) (newCarCsv : CarCsv) : LevelDb :=
  db.put (bucket ++ "_deals_car_csv") newCarCsv.marshal

/-- `generateTaskCsvToDb`. -/
def generateTaskCsvToDb (bucket : String) (records : CarCsv) (taskUuid : String) : LevelDb :=
  db.put (bucket ++ "_deals_task_csv") (records.toTaskCsv taskUuid).marshal

/-- `generateMetadataCsvToDb`. -/
def generateMetadataCsvToDb (bucket : String) (records : CarCsv) (taskUuid : String) : LevelDb :=
  db.put (bucket ++ "_deals_metadata_csv") (records.toMetaDataCsv taskUuid).marshal

end LevelDb

end Fs3.Deals

/-! ## Whose record a key is

A key is the name of a bucket, or the names of a bucket and an object in a row,
or a bucket's name with an ending. Every record has its owner, and a ledger with
one page for each owner says what the records should be. The database agrees
with the ledger as long as no two owners share a key and the deals of an object
are saved once: the second time its file name is lost.
-/

namespace Fs3.Deals

open Foundation

/-- The records of an archive. -/
inductive CsvKind where
  | car
  | task
  | metadata
  deriving DecidableEq

/-- What a record is a record of. -/
inductive Owner where
  | object (bucket object : String)
  | bucket (bucket : String)
  | csv (kind : CsvKind) (bucket : String)
  deriving DecidableEq

def CsvKind.ending : CsvKind → String
  | car => "_deals_car_csv"
  | task => "_deals_task_csv"
  | metadata => "_deals_metadata_csv"

def Owner.key : Owner → String
  | object bucketName objectName => bucketName ++ "_" ++ objectName
  | bucket bucketName => bucketName
  | csv kind bucketName => bucketName ++ kind.ending

/-- A record of an archive, as it is written. -/
inductive CsvRecord where
  | car (newCarCsv : CarCsv)
  | task (records : CarCsv) (taskUuid : String)
  | metadata (records : CarCsv) (taskUuid : String)

namespace CsvRecord

def kind : CsvRecord → CsvKind
  | car _ => .car
  | task _ _ => .task
  | metadata _ _ => .metadata

def document : CsvRecord → Document
  | car newCarCsv => newCarCsv.marshal
  | task records taskUuid => (records.toTaskCsv taskUuid).marshal
  | metadata records taskUuid => (records.toMetaDataCsv taskUuid).marshal

def save (db : LevelDb) (bucket : String) : CsvRecord → LevelDb
  | car newCarCsv => db.saveCarCsvToDb bucket newCarCsv
  | task records taskUuid => db.generateTaskCsvToDb bucket records taskUuid
  | metadata records taskUuid => db.generateMetadataCsvToDb bucket records taskUuid

theorem save_eq (record : CsvRecord) (db : LevelDb) (bucket : String) :
    record.save db bucket = db.put (Owner.csv record.kind bucket).key record.document := by
  cases record with
  | car newCarCsv => rfl
  | task records taskUuid => rfl
  | metadata records taskUuid => rfl

theorem deals_document (record : CsvRecord) : record.document.deals = none := by
  cases record with
  | car newCarCsv => rfl
  | task records taskUuid => rfl
  | metadata records taskUuid => rfl

end CsvRecord

/-- What the records should be: the deals of objects and buckets, and the last
record of each kind of an archive. -/
structure Ledger where
  objects : String × String → List SendResponse := fun _ => []
  buckets : String → List SendResponse := fun _ => []
  csvs : CsvKind × String → Option CsvRecord := fun _ => none

/-- The database and the ledger beside it. -/
structure Records where
  db : LevelDb := fun _ => none
  ledger : Ledger := {}

/-- A write to the database. -/
inductive RecordEvent where
  | saveToDb (bucket object : String) (response : SendResponse)
  | bucketSaveToDb (bucket : String) (response : SendResponse)
  | saveCsv (bucket : String) (record : CsvRecord)

namespace RecordEvent

def owner : RecordEvent → Owner
  | saveToDb bucket object _ => .object bucket object
  | bucketSaveToDb bucket _ => .bucket bucket
  | saveCsv bucket record => .csv record.kind bucket

def run (db : LevelDb) : RecordEvent → LevelDb
  | saveToDb bucket object response => db.saveToDb bucket object response
  | bucketSaveToDb bucket response => db.bucketSaveToDb bucket response
  | saveCsv bucket record => record.save db bucket

def enter (ledger : Ledger) : RecordEvent → Ledger
  | saveToDb bucket object response =>
    { ledger with
      objects := Function.update ledger.objects (bucket, object)
        (ledger.objects (bucket, object) ++ [response]) }
  | bucketSaveToDb bucket response =>
    { ledger with
      buckets := Function.update ledger.buckets bucket (ledger.buckets bucket ++ [response]) }
  | saveCsv bucket record =>
    { ledger with
      csvs := Function.update ledger.csvs (record.kind, bucket) (some record) }

def step (s : Records) (event : RecordEvent) : Records where
  db := event.run s.db
  ledger := event.enter s.ledger

end RecordEvent

def savedFileList (object : String) : List SendResponse → Option BucketFileList
  | [] => none
  | deals => some ⟨object, deals⟩

def savedDealList (bucket : String) : List SendResponse → Option BucketDealList
  | [] => none
  | deals => some ⟨bucket, deals⟩

def Agrees (s : Records) : Owner → Prop
  | .object bucket object =>
    s.db.fileDeals bucket object = savedFileList object (s.ledger.objects (bucket, object))
  | .bucket name => s.db.bucketDeals name = savedDealList name (s.ledger.buckets name)
  | .csv kind bucket =>
    s.db (bucket ++ kind.ending) = (s.ledger.csvs (kind, bucket)).map CsvRecord.document

instance (s : Records) : DecidablePred (Agrees s)
  | .object bucket object => inferInstanceAs (Decidable
      (s.db.fileDeals bucket object = savedFileList object (s.ledger.objects (bucket, object))))
  | .bucket name => inferInstanceAs (Decidable
      (s.db.bucketDeals name = savedDealList name (s.ledger.buckets name)))
  | .csv kind bucket => inferInstanceAs (Decidable
      (s.db (bucket ++ kind.ending) = (s.ledger.csvs (kind, bucket)).map CsvRecord.document))

def Faithful (owners : Set Owner) (s : Records) : Prop := ∀ owner ∈ owners, Agrees s owner

/-- The writes that keep the database and the ledger in step: no other owner has the
same key, and the deals of an object are not there yet, unless it has no name. -/
def RecordEvent.Proper (owners : Set Owner) (s : Records) (event : RecordEvent) : Prop :=
  (∀ owner ∈ owners, owner.key = event.owner.key → owner = event.owner) ∧
    ∀ bucket object response, event = .saveToDb bucket object response →
      .object bucket object ∈ owners → object = "" ∨ s.ledger.objects (bucket, object) = []

variable {owners : Set Owner} {s : Records} {event : RecordEvent} {owner : Owner}

theorem CsvKind.ending_injective {kind kind' : CsvKind} {bucket bucket' : String}
    (hkey : bucket ++ kind.ending = bucket' ++ kind'.ending) :
    kind = kind' ∧ bucket = bucket' := by
  have hlists := congrArg (List.reverse ∘ String.toList) hkey
  simp only [Function.comp_apply, String.toList_append, List.reverse_append] at hlists
  have hkind : kind = kind' := by
    cases kind <;> cases kind' <;> simp [CsvKind.ending] at hlists ⊢
  subst hkind
  refine ⟨rfl, ?_⟩
  rw [List.append_cancel_left_eq, List.reverse_inj] at hlists
  exact String.toList_inj.mp hlists

def RecordEvent.document (old : Option Document) : RecordEvent → Document
  | saveToDb _ object response =>
    match old with
    | some document =>
      ⟨[("bucket_name", document.text "bucket_name")],
        some (document.deals.getD [] ++ [response])⟩
    | none => ⟨[("file_name", object)], some [response]⟩
  | bucketSaveToDb bucket response =>
    match old with
    | some document =>
      ⟨[("bucket_name", document.text "bucket_name")],
        some (document.deals.getD [] ++ [response])⟩
    | none => ⟨[("bucket_name", bucket)], some [response]⟩
  | saveCsv _ record => record.document

theorem run_eq (db : LevelDb) (event : RecordEvent) :
    event.run db = db.put event.owner.key (event.document (db event.owner.key)) := by
  cases event with
  | saveToDb bucket object response =>
    simp only [RecordEvent.run, LevelDb.saveToDb, RecordEvent.owner, Owner.key]
    cases db (bucket ++ "_" ++ object) with
    | none => rfl
    | some document => rfl
  | bucketSaveToDb bucket response =>
    simp only [RecordEvent.run, LevelDb.bucketSaveToDb, RecordEvent.owner, Owner.key]
    cases db bucket with
    | none => rfl
    | some document => rfl
  | saveCsv bucket record => exact record.save_eq db bucket

theorem run_of_key_eq {key : String} (db : LevelDb) (hkey : key = event.owner.key) :
    event.run db key = some (event.document (db key)) := by
  rw [run_eq, LevelDb.put, hkey, Function.update_self]

theorem run_of_key_ne {key : String} (db : LevelDb) (hkey : key ≠ event.owner.key) :
    event.run db key = db key := by
  rw [run_eq, LevelDb.put, Function.update_of_ne hkey]

theorem exists_deals_document (hsave : ∀ bucket record, event ≠ .saveCsv bucket record)
    (old : Option Document) : ∃ response, (event.document old).deals =
      some ((old.bind Document.deals).getD [] ++ [response]) := by
  cases event with
  | saveToDb _ _ response | bucketSaveToDb _ response =>
    refine ⟨response, ?_⟩
    cases old with
    | none => rfl
    | some document => rfl
  | saveCsv bucket record => exact absurd rfl (hsave bucket record)

/-! ## Agreement -/

theorem agrees_congr {db db' : LevelDb} {ledger : Ledger} (hdb : db owner.key = db' owner.key) :
    Agrees ⟨db, ledger⟩ owner ↔ Agrees ⟨db', ledger⟩ owner := by
  cases owner with
  | object bucket object =>
    simp only [Owner.key] at hdb
    simp only [Agrees, LevelDb.fileDeals, hdb]
  | bucket name =>
    simp only [Owner.key] at hdb
    simp only [Agrees, LevelDb.bucketDeals, hdb]
  | csv kind bucket =>
    simp only [Owner.key] at hdb
    simp only [Agrees, hdb]

/-- A write goes to the page of its owner. -/
theorem agrees_step_of_ne (hne : owner ≠ event.owner) :
    Agrees (event.step s) owner ↔ Agrees ⟨event.run s.db, s.ledger⟩ owner := by
  cases owner with
  | object bucket object =>
    have hpage : (event.enter s.ledger).objects (bucket, object) =
        s.ledger.objects (bucket, object) := by
      cases event with
      | saveToDb bucket' object' response =>
        refine Function.update_of_ne ?_ _ _
        rintro heq
        cases heq
        exact hne rfl
      | bucketSaveToDb bucket' response => rfl
      | saveCsv bucket' record => rfl
    simp only [Agrees, RecordEvent.step, hpage]
  | bucket name =>
    have hpage : (event.enter s.ledger).buckets name = s.ledger.buckets name := by
      cases event with
      | saveToDb bucket' object' response => rfl
      | bucketSaveToDb bucket' response =>
        refine Function.update_of_ne ?_ _ _
        rintro rfl
        exact hne rfl
      | saveCsv bucket' record => rfl
    simp only [Agrees, RecordEvent.step, hpage]
  | csv kind bucket =>
    have hpage : (event.enter s.ledger).csvs (kind, bucket) = s.ledger.csvs (kind, bucket) := by
      cases event with
      | saveToDb bucket' object' response => rfl
      | bucketSaveToDb bucket' response => rfl
      | saveCsv bucket' record =>
        refine Function.update_of_ne ?_ _ _
        rintro heq
        cases heq
        exact hne rfl
    simp only [Agrees, RecordEvent.step, hpage]

theorem savedFileList_append (object : String) (deals : List SendResponse)
    (response : SendResponse) :
    savedFileList object (deals ++ [response]) = some ⟨object, deals ++ [response]⟩ := by
  cases deals with
  | nil => rfl
  | cons first rest => rfl

theorem savedDealList_append (bucket : String) (deals : List SendResponse)
    (response : SendResponse) :
    savedDealList bucket (deals ++ [response]) = some ⟨bucket, deals ++ [response]⟩ := by
  cases deals with
  | nil => rfl
  | cons first rest => rfl

/-- The record that is written agrees afterwards, unless it was the record of an
object with a name. -/
theorem agrees_step_owner (hagrees : Agrees s event.owner)
    (hname : ∀ bucket object response, event = .saveToDb bucket object response →
      object = "" ∨ s.ledger.objects (bucket, object) = []) :
    Agrees (event.step s) event.owner := by
  have hdb := @run_of_key_eq event _ s.db rfl
  cases event with
  | saveToDb bucket object response =>
    simp only [Agrees, RecordEvent.owner, Owner.key, LevelDb.fileDeals] at hagrees hdb ⊢
    simp only [RecordEvent.step, hdb, RecordEvent.enter, Function.update_self,
      savedFileList_append]
    cases hold : s.db (bucket ++ "_" ++ object) with
    | none =>
      rw [hold] at hagrees
      cases hsaved : s.ledger.objects (bucket, object) with
      | nil => rfl
      | cons first rest =>
        rw [hsaved] at hagrees
        cases hagrees
    | some document =>
      rw [hold] at hagrees
      cases hsaved : s.ledger.objects (bucket, object) with
      | nil =>
        rw [hsaved] at hagrees
        cases hagrees
      | cons first rest =>
        have hempty : object = "" := by
          rcases hname bucket object response rfl with hempty | hnil
          · exact hempty
          · rw [hsaved] at hnil
            cases hnil
        rw [hsaved] at hagrees
        simp only [Option.map_some, savedFileList, Option.some.injEq,
          BucketFileList.unmarshal, BucketFileList.mk.injEq] at hagrees
        rw [← hagrees.2, hempty]
        rfl
  | bucketSaveToDb bucket response =>
    simp only [Agrees, RecordEvent.owner, Owner.key, LevelDb.bucketDeals] at hagrees hdb ⊢
    simp only [RecordEvent.step, hdb, RecordEvent.enter, Function.update_self,
      savedDealList_append]
    cases hold : s.db bucket with
    | none =>
      rw [hold] at hagrees
      cases hsaved : s.ledger.buckets bucket with
      | nil => rfl
      | cons first rest =>
        rw [hsaved] at hagrees
        cases hagrees
    | some document =>
      rw [hold] at hagrees
      cases hsaved : s.ledger.buckets bucket with
      | nil =>
        rw [hsaved] at hagrees
        cases hagrees
      | cons first rest =>
        rw [hsaved] at hagrees
        simp only [Option.map_some, savedDealList, Option.some.injEq,
          BucketDealList.unmarshal, BucketDealList.mk.injEq] at hagrees
        rw [← hagrees.2]
        exact congrArg (fun name => some (BucketDealList.mk name _)) hagrees.1
  | saveCsv bucket record =>
    simp only [RecordEvent.owner, Agrees, RecordEvent.step, RecordEvent.enter,
      Function.update_self, Option.map_some]
    exact hdb

/-- A document changes for everyone who reads it. -/
theorem not_agrees_step_of_key_eq (hagrees : Agrees s owner) (hkey : owner.key = event.owner.key)
    (hne : owner ≠ event.owner) : ¬ Agrees (event.step s) owner := by
  rw [agrees_step_of_ne hne]
  intro hafter
  have hdb := run_of_key_eq s.db hkey
  by_cases hsave : ∀ bucket record, event ≠ .saveCsv bucket record
  · obtain ⟨response, hdeals⟩ := exists_deals_document hsave (s.db owner.key)
    -- Deals that are one more than they were.
    have hmore : ∀ old, s.db owner.key = some old →
        old.deals.getD [] ≠ (event.document (s.db owner.key)).deals.getD [] := by
      intro old hold heq
      rw [hdeals, hold] at heq
      have hlength := congrArg List.length heq
      simp at hlength
    cases owner with
    | object bucket object =>
      simp only [Agrees, LevelDb.fileDeals, Owner.key] at hagrees hafter hdb hmore
      rw [← hagrees, hdb] at hafter
      cases hold : s.db (bucket ++ "_" ++ object) with
      | none =>
        rw [hold] at hafter
        cases hafter
      | some old =>
        refine hmore old hold ?_
        rw [hold] at hafter ⊢
        exact (congrArg BucketFileList.deals (Option.some.inj hafter)).symm
    | bucket name =>
      simp only [Agrees, LevelDb.bucketDeals, Owner.key] at hagrees hafter hdb hmore
      rw [← hagrees, hdb] at hafter
      cases hold : s.db name with
      | none =>
        rw [hold] at hafter
        cases hafter
      | some old =>
        refine hmore old hold ?_
        rw [hold] at hafter ⊢
        exact (congrArg BucketDealList.deals (Option.some.inj hafter)).symm
    | csv kind bucket =>
      simp only [Agrees, Owner.key] at hafter hdb
      rw [hdb] at hafter
      obtain ⟨record, -, hrecord⟩ := Option.map_eq_some_iff.mp hafter.symm
      have hnone := record.deals_document
      rw [hrecord] at hnone
      rw [Owner.key, hnone] at hdeals
      cases hdeals
  · simp only [not_forall, not_not] at hsave
    obtain ⟨bucket', record, rfl⟩ := hsave
    cases owner with
    | object bucket object =>
      simp only [Agrees, LevelDb.fileDeals, Owner.key] at hafter hdb
      rw [hdb] at hafter
      cases hsaved : s.ledger.objects (bucket, object) with
      | nil =>
        rw [hsaved] at hafter
        cases hafter
      | cons first rest =>
        rw [hsaved] at hafter
        have hdeals := congrArg BucketFileList.deals (Option.some.inj hafter)
        simp only [BucketFileList.unmarshal, RecordEvent.document, record.deals_document]
          at hdeals
        cases hdeals
    | bucket name =>
      simp only [Agrees, LevelDb.bucketDeals, Owner.key] at hafter hdb
      rw [hdb] at hafter
      cases hsaved : s.ledger.buckets name with
      | nil =>
        rw [hsaved] at hafter
        cases hafter
      | cons first rest =>
        rw [hsaved] at hafter
        have hdeals := congrArg BucketDealList.deals (Option.some.inj hafter)
        simp only [BucketDealList.unmarshal, RecordEvent.document, record.deals_document]
          at hdeals
        cases hdeals
    | csv kind bucket =>
      obtain ⟨rfl, rfl⟩ := CsvKind.ending_injective hkey
      exact hne rfl

theorem not_agrees_saveToDb {bucket object : String} (response : SendResponse)
    (hagrees : Agrees s (.object bucket object)) (hname : object ≠ "")
    (hsaved : s.ledger.objects (bucket, object) ≠ []) :
    ¬ Agrees (RecordEvent.step s (.saveToDb bucket object response)) (.object bucket object) := by
  have hdb := @run_of_key_eq (.saveToDb bucket object response) _ s.db rfl
  simp only [Agrees, RecordEvent.owner, Owner.key, LevelDb.fileDeals] at hagrees hdb ⊢
  simp only [RecordEvent.step, hdb, RecordEvent.enter, Function.update_self, savedFileList_append]
  cases hold : s.db (bucket ++ "_" ++ object) with
  | none =>
    rw [hold] at hagrees
    cases hsome : s.ledger.objects (bucket, object) with
    | nil => exact absurd hsome hsaved
    | cons first rest =>
      rw [hsome] at hagrees
      cases hagrees
  | some document =>
    intro hafter
    exact hname (congrArg BucketFileList.fileName (Option.some.inj hafter)).symm

theorem faithful_empty : Faithful owners {} := by
  intro owner howner
  cases owner <;> rfl

theorem faithful_step (hfaithful : Faithful owners s) (hproper : event.Proper owners s) :
    Faithful owners (event.step s) := by
  intro owner howner
  by_cases hkey : owner.key = event.owner.key
  · obtain rfl := hproper.1 owner howner hkey
    refine agrees_step_owner (hfaithful _ howner) fun bucket object response hevent => ?_
    subst hevent
    exact hproper.2 bucket object response rfl howner
  · rw [agrees_step_of_ne fun heq => hkey (congrArg Owner.key heq),
      agrees_congr (run_of_key_ne s.db hkey)]
    exact hfaithful owner howner

theorem not_faithful_step (hfaithful : Faithful owners s) (himproper : ¬ event.Proper owners s) :
    ¬ Faithful owners (event.step s) := by
  intro hafter
  rcases not_and_or.mp himproper with hshared | hagain
  · simp only [not_forall] at hshared
    obtain ⟨owner, howner, hkey, hne⟩ := hshared
    exact not_agrees_step_of_key_eq (hfaithful owner howner) hkey hne (hafter owner howner)
  · simp only [not_forall, not_or] at hagain
    obtain ⟨bucket, object, response, rfl, howner, hname, hsaved⟩ := hagain
    exact not_agrees_saveToDb response (hfaithful _ howner) hname hsaved (hafter _ howner)

/-- For any owners whose records matter, the database agrees with the ledger
throughout a history of writes exactly when no owner shares the key of a record
that is written, and the deals of an object with a name are saved once. -/
theorem faithful_iff_proper (owners : Set Owner) (events : List RecordEvent) :
    Always RecordEvent.step (Faithful owners) {} events ↔
      Guarded RecordEvent.step (fun s event => event.Proper owners s) {} events :=
  always_iff_guarded (fun _ _ hfaithful hproper => faithful_step hfaithful hproper)
    (fun _ hfaithful => hfaithful)
    (fun _ _ hfaithful himproper => not_faithful_step hfaithful himproper) faithful_empty

section Examples

def sent (cid : String) : SendResponse := ⟨{ dealCid := cid }, "success", "success"⟩

/-- A second deal of one object; an object of a bucket beside an object of another;
and an object with the name of an ending. -/
theorem not_faithful_examples :
    ¬ Always RecordEvent.step (Faithful {.object "bucket" "file"}) {}
        [.saveToDb "bucket" "file" (sent "1"), .saveToDb "bucket" "file" (sent "2")] ∧
      ¬ Always RecordEvent.step (Faithful {.object "a" "b_c", .object "a_b" "c"}) {}
        [.saveToDb "a" "b_c" (sent "1")] ∧
      ¬ Always RecordEvent.step (Faithful {.csv .car "bucket"}) {}
        [.saveToDb "bucket" "deals_car_csv" (sent "1")] := by
  refine ⟨fun halways => ?_, fun halways => ?_, fun halways => ?_⟩
  · exact absurd (halways _ List.prefix_rfl (.object "bucket" "file") rfl) (by decide)
  · exact absurd (halways _ List.prefix_rfl (.object "a_b" "c") (Or.inr rfl)) (by decide)
  · exact absurd (halways _ List.prefix_rfl (.csv .car "bucket") rfl) (by decide)

end Examples

end Fs3.Deals
