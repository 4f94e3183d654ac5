import MapaZimSlupsk.Lts.Basic
import MapaZimSlupsk.Sort.Bubble
import MapaZimSlupsk.Fold.LastWrite
import MapaZimSlupsk.Exact.Root
import MapaZimSlupsk.Firestore.Documents
import MapaZimSlupsk.Home.Handler
import MapaZimSlupsk.Home.Route
import MapaZimSlupsk.Home.CalculateLines
import MapaZimSlupsk.Home.Coverage
import MapaZimSlupsk.Home.Page
import MapaZimSlupsk.Home.Shown
import MapaZimSlupsk.Home.Soundness
import MapaZimSlupsk.Home.ReadCount
import MapaZimSlupsk.NearStops.Insert
import MapaZimSlupsk.NearStops.InOrder
import MapaZimSlupsk.NearStops.Nearest
import MapaZimSlupsk.NearStops.Page
import MapaZimSlupsk.NearStops.Subscriptions
import MapaZimSlupsk.NearStops.Latest
import MapaZimSlupsk.NearStops.Reads
import MapaZimSlupsk.App.MapPages
import MapaZimSlupsk.App.Navigation
import MapaZimSlupsk.App.Disposal
import MapaZimSlupsk.Home.LoopRoute
import MapaZimSlupsk.Home.Termination
import MapaZimSlupsk.NearStops.Arrays
import MapaZimSlupsk.NearStops.Geofence
import MapaZimSlupsk.NearStops.Named
import MapaZimSlupsk.NearStops.MapButton
import MapaZimSlupsk.Fold.LastSeen
import MapaZimSlupsk.Lts.Simulation
import MapaZimSlupsk.Search.Basic
import MapaZimSlupsk.Home.Prompt
import MapaZimSlupsk.Walkers.Basic
import MapaZimSlupsk.Home.Cost
import MapaZimSlupsk.Descent.Basic
import MapaZimSlupsk.NearStops.Settles
import MapaZimSlupsk.NearStops.Rows
import MapaZimSlupsk.App.Stack
import MapaZimSlupsk.App.Pages
import MapaZimSlupsk.App.Late
import MapaZimSlupsk.Keyed.Basic
import MapaZimSlupsk.App.Choice
import MapaZimSlupsk.Sort.Ordered
import MapaZimSlupsk.Watch.Basic
import MapaZimSlupsk.Weekdays.Times
import MapaZimSlupsk.Weekdays.Stops
import MapaZimSlupsk.Weekdays.Lines
import MapaZimSlupsk.Weekdays.Courses
import MapaZimSlupsk.Lts.Inevitable
import MapaZimSlupsk.Home.Inevitable
