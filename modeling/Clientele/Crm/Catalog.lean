import Clientele.Crm.Entity

/-!
The entities of customer relations: companies, contacts, deals, quotes, tasks and what belongs to
them, the users, and the audit trail, which can only be read.
-/
set_option autoImplicit false

namespace Clientele.Crm

def audits : Entity :=
  { plainEntity "audits" "Audit" "audits" with
    relations := [toUser "userId" "user"]
    readOnly := true }

def companies : Entity :=
  { plainEntity "companies" "Company" "companies" with
    relations := [toUser "salesOwnerId" "salesOwner",
      fromMany "contacts" "companyId" "contacts.nodes",
      sizeOf "contacts.nodes" "contacts.totalCount",
      fromMany "deals" "companyId" "dealsAggregate.nodes",
      sumOf "dealsAggregate.nodes" "value" "dealsAggregate.sum.value"] }

def companyNotes : Entity :=
  { plainEntity "companyNotes" "CompanyNote" "companynotes" with
    relations := [toOne "companies" "companyId" "company", toUser "createdById" "createdBy"] }

def contacts : Entity :=
  { plainEntity "contacts" "Contact" "contacts" with
    relations := [toOne "companies" "companyId" "company", toUser "salesOwnerId" "salesOwner"]
    defaults := [("stage", .str "LEAD"), ("status", .str "NEW")] }

def contactNotes : Entity :=
  { plainEntity "contactNotes" "ContactNote" "contactnotes" with
    relations := [toOne "contacts" "contactId" "contact", toUser "createdById" "createdBy"] }

def deals : Entity :=
  { plainEntity "deals" "Deal" "deals" with
    relations := [toOne "companies" "companyId" "company", toOne "dealstages" "stageId" "stage",
      toOne "contacts" "dealContactId" "dealContact", toUser "dealOwnerId" "dealOwner"] }

def dealStages : Entity :=
  { plainEntity "dealStages" "DealStage" "dealstages" with
    relations := [fromMany "deals" "stageId" "dealsAggregate.nodes",
      sumOf "dealsAggregate.nodes" "value" "dealsAggregate.sum.value"] }

def events : Entity :=
  { plainEntity "events" "Event" "events" with
    relations := [toOne "eventcategories" "categoryId" "category",
      toUser "createdById" "createdBy", toMany "users" "participantIds" "participants"] }

def eventCategories : Entity := plainEntity "eventCategories" "EventCategory" "eventcategories"

def quotes : Entity :=
  { plainEntity "quotes" "Quote" "quotes" with
    relations := [toOne "companies" "companyId" "company", toOne "contacts" "contactId" "contact",
      toUser "salesOwnerId" "salesOwner"]
    defaults := [("total", .num .zero), ("subTotal", .num .zero), ("tax", .num .zero),
      ("status", .str "DRAFT")]
    pricing := true }

def tasks : Entity :=
  { plainEntity "tasks" "Task" "tasks" with
    relations := [toMany "users" "userIds" "users",
      fromMany "taskcomments" "taskId" "comments.nodes",
      sizeOf "comments.nodes" "comments.totalCount", toOne "taskstages" "stageId" "stage"]
    defaults := [("completed", .bool false)] }

def taskComments : Entity :=
  { plainEntity "taskComments" "TaskComment" "taskcomments" with
    relations := [toOne "tasks" "taskId" "task", toUser "createdById" "createdBy"] }

def taskStages : Entity :=
  { plainEntity "taskStages" "TaskStage" "taskstages" with
    relations := [fromMany "tasks" "stageId" "tasksAggregate.nodes",
      sizeOf "tasksAggregate.nodes" "tasksAggregate.count.id"] }

/-- Of a user only what is public enters the trail. -/
def users : Entity :=
  { plainEntity "users" "User" "users" with
    publicFields := some ["name", "email", "phone", "jobTitle", "timezone", "role", "avatarUrl"] }

def catalog : List Entity :=
  [audits, companies, companyNotes, contactNotes, contacts, dealStages, deals, eventCategories,
    events, quotes, taskComments, taskStages, tasks, users]

def entity? (name : String) : Option Entity := catalog.find? (·.name == name)

def entityNames : List String := catalog.map (·.name)

end Clientele.Crm
