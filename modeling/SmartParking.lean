import SmartParking.AccountStore
import SmartParking.BusySession
import SmartParking.CanonicalRoute
import SmartParking.Commuting
import SmartParking.ConcurrentRegistration
import SmartParking.Coordinates
import SmartParking.Escalation
import SmartParking.Filling
import SmartParking.LazyDeletion
import SmartParking.NodeLines
import SmartParking.ParkingChoice
import SmartParking.PublicTransport
import SmartParking.Recovery
import SmartParking.SearchSafety
import SmartParking.Threads
import SmartParking.TornSave
import SmartParking.VisualRoutes
